import ByteTape.Proofs.Machine.Cancellation
import ByteTape.Proofs.Machine.Traffic
import ByteTape.Proofs.Stream.Events
import ByteTape.Proofs.Stream.Transcript
import ByteTape.Proofs.Stream.Unfailing

/-! Runs seen through what they write. The bytes that are put on an output, and all that a run does
besides, depend on the output only once an operation of it fails. -/
namespace ByteTape
namespace Execution
variable {σ : Type} [ByteOutput σ] (w : ByteOutput.Transcription σ)

def transcribed (x : Execution σ) : Execution Transcript :=
  x.supervised x.config.maxSteps x.tracer id (fun _ => none) fun o => ⟨w.written o⟩

variable {w} {x y z : Execution σ} {n : Nat}

private theorem framed_transcribed : Framed (transcribed w) :=
  ⟨fun _ => rfl, fun _ => rfl, fun _ _ _ => rfl, fun _ => rfl, fun _ => rfl⟩

private theorem signal_transcribed (x : Execution σ) (v : Option Bool) :
    (x.transcribed w).signal v = (x.signal v).transcribed w := by
  cases v <;> rfl

private theorem veto_transcribed (h : x.cancel ≠ some true) : (x.transcribed w).veto = x.veto := by
  have hnone : (x.transcribed w).cancel ≠ some true := by simp [transcribed, supervised]
  simp only [veto, if_neg h, if_neg hnone]
  rfl

theorem due?_transcribed (h : x.cancel ≠ some true) : (x.transcribed w).due? = x.due? := by
  simp only [due?, veto_transcribed h]
  rfl

private theorem perform_transcribed {i : Instruction} (hd : x.due? = some i)
    (h : ∀ e, ¬ x.Refused e) :
    (x.transcribed w).perform i = ((x.perform i).1.transcribed w, (x.perform i).2) := by
  apply perform_supervised_of id id id (f := fun _ => none) (by simp) (.inr rfl)
  · rintro rfl
    rcases hp : ByteOutput.put x.output x.current with ⟨o, e | _⟩
    · exact absurd (.write hd (by rw [hp])) (h e)
    · simp only [w.put _ _ _ hp]
      rfl
  · rintro rfl
    rcases hf : ByteOutput.flush x.output with ⟨o, e | _⟩
    · exact absurd (.flush hd (by rw [hf])) (h e)
    · simp only [w.flush _ _ hf]
      rfl
  · exact fun _ _ => rfl

/-- Where the output does not fail and no cancellation has been asked for, a tick does the same to
the transcript. -/
theorem tick_transcribed (hc : ∀ i : Instruction, x.program.get? x.ip = some i.symbol →
      x.cancel ≠ some true) (h : ∀ e, ¬ x.Refused e) :
    (x.transcribed w).tick = x.tick.map (transcribed w) := by
  rw [← tickBy_perform, ← tickBy_perform]
  apply framed_transcribed.tickBy
  intro i hi
  refine ⟨veto_transcribed (hc i hi), fun hv => ⟨?_, ?_⟩⟩
  · exact perform_transcribed (due?_eq_some_iff.mpr ⟨hv, hi⟩) h
  · intro y _
    exact framed_transcribed.record rfl (fun _ => rfl) i x.snapshot

/-- The moments of a run are moments of its transcript. -/
theorem trail_prefix_transcribed (x : Execution σ) (ws : List (Option Bool)) :
    (x.trail perform ws).map (transcribed w) <+: (x.transcribed w).trail perform ws := by
  refine trail_prefix_of_running signal_transcribed (fun x y hy => ?_) x ws
  rw [tickBy_perform] at hy ⊢
  rw [tick_transcribed, hy]
  · rfl
  · intro i hi
    exact (veto_eq_none_iff.mp ((steps_of_running hy).2 i hi).1).1
  · exact not_refused_of_running hy

/-- Nothing has asked for the run to be cancelled, and its streams will not. -/
structure Undisturbed (w : ByteOutput.Transcription σ) (x : Execution σ) : Prop where
  cancel : x.cancel ≠ some true
  input : x.input.Silent
  output : w.silent x.output

namespace Undisturbed

private theorem rung_eq_false (h : x.Undisturbed w) (i : Instruction) : x.rung i = false := by
  cases i with
  | write => exact w.rings _ (w.silent_put _ _ h.output)
  | read =>
    have hflush := w.rings _ (w.silent_flush x.output h.output)
    simp only [rung]
    rcases hf : ByteOutput.flush x.output with ⟨o, e | _⟩ <;> rw [hf] at hflush
    · exact hflush
    · simp [hflush, h.input.read.rings]
  | _ => rfl

private theorem input_perform (h : x.Undisturbed w) (i : Instruction) :
    (x.perform i).1.input.Silent := by
  by_cases hread : i = .read
  · subst hread
    have hprompt := (streams_prompt x).2
    simp only [Execution.perform]
    split
    · rename_i y hy
      rw [hy] at hprompt
      rw [(streams_accept y).2, hprompt]
      exact h.input.read
    · rw [hprompt]
      exact h.input
  · by_cases hwrite : i = .write
    · rw [hwrite, (streams_write x).2]
      exact h.input
    · rw [(streams_perform hwrite hread x).2]
      exact h.input

private theorem output_perform (h : x.Undisturbed w) (i : Instruction) :
    w.silent (x.perform i).1.output := by
  by_cases hwrite : i = .write
  · rw [hwrite, (streams_write x).1]
    exact w.silent_put _ _ h.output
  · by_cases hread : i = .read
    · rw [hread, output_read]
      exact w.silent_flush _ h.output
    · rw [(streams_perform hwrite hread x).1]
      exact h.output

/-- No instruction disturbs a run whose streams are silent. -/
theorem perform (h : x.Undisturbed w) (i : Instruction) : (x.perform i).1.Undisturbed w where
  cancel := by
    rw [cancel_perform, h.rung_eq_false]
    simpa using h.cancel
  input := h.input_perform i
  output := h.output_perform i

private theorem tick (h : x.Undisturbed w) (ht : x.tick = .running y) : y.Undisturbed w := by
  rcases running_cases ht with ⟨_, _, _, rfl⟩ | ⟨i, z, t, _, _, hp, _, rfl⟩
  · exact ⟨h.cancel, h.input, h.output⟩
  · have hz := h.perform i
    rw [hp] at hz
    exact ⟨hz.cancel, hz.input, hz.output⟩

/-- Nothing disturbs a run whose streams are silent, as long as nobody else stores anything in its
flag. -/
theorem moment (h : x.Undisturbed w)
    (hz : z ∈ x.trail Execution.perform (List.replicate n none)) : z.Undisturbed w := by
  induction n generalizing x with
  | zero => cases hz
  | succ n ih =>
    simp only [List.replicate_succ, trail, signal, tickBy_perform] at hz
    rcases List.mem_cons.mp hz with rfl | hz
    · exact h
    · cases ht : x.tick with
      | running y =>
        rw [ht] at hz
        exact ih (h.tick ht) hz
      | ended y result =>
        rw [ht] at hz
        cases hz

end Undisturbed

/-- An undisturbed run that the output never fails under is that of its transcript. -/
theorem drive_transcribed (hx : x.Undisturbed w)
    (h : ∀ z ∈ x.trail perform (List.replicate n none), ∀ e, ¬ z.Refused e) :
    (x.transcribed w).drive perform (List.replicate n none) =
        (x.drive perform (List.replicate n none)).map (transcribed w) ∧
      (x.transcribed w).trail perform (List.replicate n none) =
        (x.trail perform (List.replicate n none)).map (transcribed w) :=
  drive_of_moments signal_transcribed fun z hz =>
    tick_transcribed (fun _ _ => (hx.moment hz).cancel) (h z hz)

/-- After an unfailing last flush a run and that of its transcript end alike. -/
private theorem conclude_transcribed (own : Except RunError Unit)
    (h : (ByteOutput.flush x.output).2 = .ok ()) :
    (x.transcribed w).conclude (own.mapError .error) =
      ((x.conclude (own.mapError .error)).1.transcribed w,
        (x.conclude (own.mapError .error)).2) := by
  have hwritten : w.written (ByteOutput.flush x.output).1 = w.written x.output :=
    w.flush _ _ (Prod.ext rfl h)
  have hflushed : (x.transcribed w).flushed = x.flushed.transcribed w := by
    simp only [flushed, transcribed, supervised, hwritten]
    rfl
  rw [conclude_mapError, conclude_mapError, h, hflushed]
  rfl

section Unfailing
variable (u : ByteOutput.Unfailing σ)

private theorem firm_unfailing : Firm (σ := σ) fun x => u.good x.output where
  signal x v h := by cases v <;> exact h
  tick x h := by
    rcases x.output_tick with ⟨_, ho⟩ | ⟨_, ho⟩ | ⟨_, _, ho⟩
    · obtain ⟨o, hput, hgood, _⟩ := u.put x.output x.current h
      rwa [ho, hput]
    · obtain ⟨o, hflush, hgood, _⟩ := u.flush x.output h
      rwa [ho, hflush]
    · rwa [ho]

variable (h : u.good x.output) {ws : List (Option Bool)}
include h

/-- An output that never fails refuses nothing at any moment of a run. -/
theorem not_refused_of_unfailing (hz : z ∈ x.trail perform ws) (e : StreamError) :
    ¬ z.Refused e := by
  have hgood := (firm_unfailing u).steady.trail h ws z hz
  rintro (⟨_, failed⟩ | ⟨_, failed⟩)
  · obtain ⟨o, hput, _⟩ := u.put z.output z.current hgood
    rw [hput] at failed
    cases failed
  · obtain ⟨o, hflush, _⟩ := u.flush z.output hgood
    rw [hflush] at failed
    cases failed

/-- Nor does the flush at the end of the run fail. -/
theorem flush_of_unfailing {result : Except Fault Unit} (hd : x.drive perform ws = .ended y result) :
    (ByteOutput.flush y.output).2 = .ok () := by
  obtain ⟨o, hflush, _⟩ := u.flush y.output ((firm_unfailing u).ended h hd)
  rw [hflush]

end Unfailing

private theorem cancel_of_interrupted (h : x.tick = .ended y (.error (.error .interrupted))) :
    x.cancel = some true := by
  rcases ended_cases h with ⟨_, _, hr⟩ | ⟨_, e, _, hv, _, hr⟩ | ⟨i, f, _, _, hp, hr⟩ |
    ⟨_, _, _, f, _, _, _, hrecord, _, hr⟩
  · cases hr
  · cases hr
    by_contra hcancel
    unfold veto at hv
    rw [if_neg hcancel] at hv
    split at hv
    · cases hv
    · split at hv <;> cases hv
  · cases hr
    cases (perform_error hp).2
  · obtain ⟨_, _, _, _, hf⟩ := record_error hrecord
    rw [hf] at hr
    cases hr

end Execution

namespace Machine
open Execution
variable {σ : Type} [ByteOutput σ] {w : ByteOutput.Transcription σ} {m : Machine} {p : Program}
  {n : Nat} {input : Source} {output : σ}

/-- A run from within bounds is one of ticks that come to a result of their own, and the last
flushes. -/
theorem exists_ended_of_run (hm : m.Remembers ∧ m.Inside p) {x : Execution σ}
    {result : Except Fault Unit} (hrun : m.run n input output = some (x, result)) :
    ∃ y own, (m.start input output).drive perform (List.replicate n none) =
        .ended y (Except.mapError .error own) ∧ x = y.flushed ∧
      result = (y.conclude (own.mapError .error)).2 := by
  obtain ⟨y, r, hy, hconclude⟩ := run_eq_some_iff.mp hrun
  rw [← drive_replicate] at hy
  obtain ⟨own, rfl, _⟩ := ended_of_bounded (bounded_start hm input output) hy
  refine ⟨y, own, hy, ?_, (congrArg Prod.snd hconclude).symm⟩
  rw [conclude_mapError] at hconclude
  exact (congrArg Prod.fst hconclude).symm

theorem isSome_run (m : Machine) (n : Nat) (input : Source) (output : σ) :
    (m.run n input output).isSome =
      ((m.start input output).drive perform (List.replicate n none)).result?.isSome := by
  unfold run
  rw [drive_replicate]
  cases (m.start input output).ticks n <;> rfl

/-- An undisturbed run succeeds, or it fails with an error of its own and is not interrupted. -/
theorem result_of_undisturbed (hm : m.Remembers ∧ m.Inside p)
    (hx : (m.start input output).Undisturbed w) {x : Execution σ} {result : Except Fault Unit}
    (hrun : m.run n input output = some (x, result)) :
    result = .ok () ∨ ∃ e, result = .error (.error e) ∧ e ≠ .interrupted := by
  obtain ⟨y, own, hy, _, rfl⟩ := exists_ended_of_run hm hrun
  rcases y.result_conclude (own.mapError .error) with he | ⟨_, e, he⟩
  · rw [he]
    rcases own with e | _
    · refine .inr ⟨e, rfl, ?_⟩
      rintro rfl
      obtain ⟨z, hz, hend⟩ := exists_last_of_ended hy
      exact (hx.moment (List.mem_of_getLast? hz)).cancel (cancel_of_interrupted hend)
    · exact .inl rfl
  · exact .inr ⟨_, he, nofun⟩

/-- An undisturbed run that the output never fails under comes to what the run on a transcript
comes to. -/
theorem run_transcribed (hm : m.Remembers ∧ m.Inside p) (hx : (m.start input output).Undisturbed w)
    (h : ∀ z ∈ (m.start input output).trail perform (List.replicate n none), ∀ e, ¬ z.Refused e)
    (hlast : ∀ y r, (m.start input output).drive perform (List.replicate n none) = .ended y r →
      (ByteOutput.flush y.output).2 = .ok ()) :
    m.unflagged.run n input (⟨w.written output⟩ : Transcript) =
      (m.run n input output).map fun r => (r.1.transcribed w, r.2) := by
  have hdrive : (m.unflagged.start input (⟨w.written output⟩ : Transcript)).drive perform
      (List.replicate n none) = _ := (drive_transcribed hx h).1
  unfold run
  rw [← drive_replicate, ← drive_replicate, hdrive]
  cases hd : (m.start input output).drive perform (List.replicate n none) with
  | running y => rfl
  | ended y r =>
    obtain ⟨own, rfl, _⟩ := ended_of_bounded (bounded_start hm input output) hd
    exact congrArg some (conclude_transcribed own (hlast _ _ hd))

end Machine
end ByteTape
