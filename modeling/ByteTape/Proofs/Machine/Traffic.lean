import ByteTape.Proofs.Machine.Failure
import ByteTape.Proofs.Machine.Past

/-! What passes between a run and its streams. A tick puts a byte on the output when it carries
out a write, and flushes it when it starts a read; the input is read after such a flush, and at
no other time. -/
namespace ByteTape

namespace Execution
variable {σ : Type} {x y z : Execution σ} {past : List (Execution σ)}

/-- The byte that the next tick is to put on the output. -/
def printed? (x : Execution σ) : Option UInt8 :=
  if x.due? = some .write then some x.current else none

def asks (x : Execution σ) : Bool := x.due? == some .read

theorem asks_iff : x.asks = true ↔ x.due? = some .read := by
  simp [asks]

variable [ByteOutput σ]

/-- The output fails under the next tick. -/
inductive Refused (x : Execution σ) (e : StreamError) : Prop
  | write (due : x.due? = some .write) (failed : (ByteOutput.put x.output x.current).2 = .error e)
  | flush (due : x.due? = some .read) (failed : (ByteOutput.flush x.output).2 = .error e)

/-- The state in which the next tick attempts to read the input. It comes to that if it starts a
read and the flush has succeeded. -/
def attempt? (x : Execution σ) : Option (Execution σ) :=
  if x.asks then
    match x.prompt with
    | (y, .ok ()) => some y
    | (_, .error _) => none
  else none

theorem attempt?_eq_some_iff :
    x.attempt? = some y ↔ x.due? = some .read ∧ x.prompt = (y, .ok ()) := by
  unfold attempt?
  by_cases ha : x.asks = true
  · rw [if_pos ha]
    rcases x.prompt with ⟨z, e | _⟩
    · simp
    · simp [asks_iff.mp ha]
  · rw [if_neg ha]
    simp [mt asks_iff.mpr ha]

private theorem prompt_of_flush {e : StreamError} (h : (ByteOutput.flush x.output).2 = .error e) :
    x.prompt = (x.heedOutput (ByteOutput.flush x.output).1, .error (.error (.stream x.ip e))) := by
  rcases hf : ByteOutput.flush x.output with ⟨o, e' | _⟩
  · rw [hf] at h
    cases h
    simp [prompt, hf]
  · rw [hf] at h
    cases h

theorem exists_prompt (h : (ByteOutput.flush x.output).2 = .ok ()) :
    ∃ y, x.prompt = (y, .ok ()) := by
  rcases hf : ByteOutput.flush x.output with ⟨o, e | _⟩
  · rw [hf] at h
    cases h
  · exact ⟨x.heedOutput o, by simp [prompt, hf]⟩

/-- A tick that the output fails under changes nothing but the output, which may set the flag. -/
theorem tick_of_refused {e : StreamError} (h : x.Refused e) :
    ∃ o, x.tick = .ended (x.heedOutput o) (.error (.error (.stream x.ip e))) := by
  cases h with
  | write due failed =>
    rcases hp : ByteOutput.put x.output x.current with ⟨o, e' | _⟩
    · rw [hp] at failed
      cases failed
      exact ⟨o, by simp [tick_of_due due, executeBy, perform, emit, hp]⟩
    · rw [hp] at failed
      cases failed
  | flush due failed =>
    exact ⟨_, by simp only [tick_of_due due, executeBy, perform, prompt_of_flush failed]; rfl⟩

/-- A run ends where the output fails. -/
theorem result?_of_refused {ws : List (Option Bool)} {e : StreamError}
    (hz : z ∈ x.trail perform ws) (h : z.Refused e) :
    (x.drive perform ws).result? = some (.error (.error (.stream z.ip e))) := by
  obtain ⟨o, ht⟩ := tick_of_refused h
  rw [drive_of_ended hz ht]
  rfl

/-- The run goes on only from states whose output has not failed. -/
theorem not_refused_of_running (h : x.tick = .running y) (e : StreamError) : ¬ x.Refused e := by
  intro hr
  obtain ⟨o, ho⟩ := tick_of_refused hr
  rw [ho] at h
  cases h

/-- What a tick does to the output. -/
theorem output_tick (x : Execution σ) :
    (x.due? = some .write ∧ x.tick.state.output = (ByteOutput.put x.output x.current).1) ∨
    (x.due? = some .read ∧ x.tick.state.output = (ByteOutput.flush x.output).1) ∨
    (x.due? ≠ some .write ∧ x.due? ≠ some .read ∧ x.tick.state.output = x.output) := by
  obtain ⟨t, n, k, hs⟩ := x.state_tick
  rw [hs]
  cases hd : x.due? with
  | none => exact .inr (.inr ⟨by simp, by simp, rfl⟩)
  | some i =>
    by_cases hwrite : i = .write
    · subst hwrite
      exact .inl ⟨rfl, (streams_write x).1⟩
    · by_cases hread : i = .read
      · subst hread
        exact .inr (.inl ⟨rfl, output_read x⟩)
      · exact .inr (.inr ⟨by simpa using hwrite, by simpa using hread,
          (streams_perform hwrite hread x).1⟩)

section Stored
variable (a : ByteOutput.Account σ)

/-- A tick stores the byte that it is to print, unless the output fails. -/
theorem stored_tick (h : ∀ e, ¬ x.Refused e) :
    a.stored x.tick.state.output = a.stored x.output ++ x.printed?.toList := by
  rcases x.output_tick with ⟨hd, ho⟩ | ⟨hd, ho⟩ | ⟨hwrite, _, ho⟩
  · rcases hp : ByteOutput.put x.output x.current with ⟨o, e | _⟩
    · exact absurd (.write hd (by rw [hp])) (h e)
    · rw [ho, hp, a.put_ok _ _ _ hp, printed?, if_pos hd, Option.toList_some]
  · simp [ho, a.flush, printed?, hd]
  · simp [ho, printed?, hwrite]

/-- A tick that the output fails under stores nothing. -/
theorem stored_tick_of_refused {e : StreamError} (h : x.Refused e) :
    a.stored x.tick.state.output = a.stored x.output := by
  rcases x.output_tick with ⟨hd, ho⟩ | ⟨_, ho⟩ | ⟨hwrite, hread, _⟩
  · cases h with
    | write _ failed =>
      rw [ho]
      exact a.put_error _ _ _ e (Prod.ext rfl failed)
    | flush due _ =>
      rw [hd] at due
      cases due
  · rw [ho, a.flush]
  · cases h with
    | write due _ => exact absurd due hwrite
    | flush due _ => exact absurd due hread

/-- At each moment the bytes printed before are stored behind those from before the run. -/
theorem historic_stored (stored : List UInt8) : Historic (σ := σ) fun past x =>
    a.stored x.output = stored ++ past.filterMap printed? where
  signal past x w h := by cases w <;> exact h
  tick past x y h ht := by
    have hs := stored_tick a (not_refused_of_running ht)
    rw [ht, Progress.state, h] at hs
    rw [hs, List.filterMap_append, List.append_assoc]
    cases hp : x.printed? <;> simp [hp]

/-- A run that the output never fails under has stored all that was printed when it ends. -/
theorem stored_of_ended {ws : List (Option Bool)} {result : Except Fault Unit}
    (hd : x.drive perform ws = .ended y result)
    (hr : ∀ z ∈ x.trail perform ws, ∀ e, ¬ z.Refused e) :
    a.stored y.output = a.stored x.output ++ (x.trail perform ws).filterMap printed? := by
  obtain ⟨before, z, hmoments, hz⟩ := exists_last hd
  have hstored := (historic_stored a (a.stored x.output)).moment (List.append_nil _).symm hmoments
  have hlast := stored_tick a (hr z (by simp [hmoments]))
  rw [hz, Progress.state] at hlast
  rw [hmoments, List.filterMap_append, ← List.append_assoc]
  refine hlast.trans (congrArg₂ _ hstored ?_)
  cases hp : z.printed? <;> simp [hp]

/-- What is stored stays stored while a run goes on. -/
theorem stored_prefix_drive (x : Execution σ) (ws : List (Option Bool)) :
    a.stored x.output <+: a.stored (x.drive perform ws).state.output := by
  induction ws generalizing x with
  | nil => exact List.prefix_rfl
  | cons w ws ih =>
    have hw : (x.signal w).output = x.output := by cases w <;> rfl
    have htick := stored_prefix_tick a (x.signal w)
    rw [hw] at htick
    simp only [drive, tickBy_perform]
    cases ht : (x.signal w).tick with
    | running y =>
      rw [ht] at htick
      exact htick.trans (ih y)
    | ended y result =>
      rw [ht] at htick
      exact htick

end Stored

section Notes
variable (a : ByteOutput.Ledger σ)

/-- A tick flushes the output if it starts a read, with all that is stored. -/
theorem notes_tick (x : Execution σ) : a.notes x.tick.state.output =
    a.notes x.output ++ if x.asks then [(a.stored x.output).length] else [] := by
  rcases x.output_tick with ⟨hd, ho⟩ | ⟨hd, ho⟩ | ⟨_, hread, ho⟩
  · simp [ho, a.notes_put, asks, hd]
  · simp [ho, a.notes_flush, asks, hd]
  · simp [ho, asks, hread]

/-- At each moment there is a note for each read that was started before. -/
theorem historic_notes (notes : List Nat) : Historic (σ := σ) fun past x =>
    a.notes x.output = notes ++ (past.filter asks).map fun w => (a.stored w.output).length where
  signal past x w h := by cases w <;> exact h
  tick past x y h ht := by
    have hs := notes_tick a x
    rw [ht, Progress.state, h] at hs
    rw [hs, List.filter_append, List.map_append, List.append_assoc]
    congr 2
    cases ha : x.asks <;> simp [ha]

end Notes

/-- Nothing but an attempt to read takes anything from the input, and the flush before it does
not. -/
theorem input_tick (x : Execution σ) :
    (x.attempt? = none → x.tick.state.input = x.input) ∧
    ∀ y, x.attempt? = some y → x.tick.state.input = y.input.read.1 ∧ y.input = x.input ∧
      y.output = (ByteOutput.flush x.output).1 := by
  obtain ⟨t, n, k, hs⟩ := x.state_tick
  rw [hs]
  constructor
  · intro ha
    cases hd : x.due? with
    | none => rfl
    | some i =>
      by_cases hread : i = .read
      · subst hread
        have hp := (streams_prompt x).2
        rcases he : x.prompt with ⟨y, e | _⟩
        · rw [he] at hp
          simpa [perform, he] using hp
        · rw [attempt?_eq_some_iff.mpr ⟨hd, he⟩] at ha
          cases ha
      · by_cases hwrite : i = .write
        · subst hwrite
          exact (streams_write x).2
        · exact (streams_perform hwrite hread x).2
  · intro y ha
    obtain ⟨hd, he⟩ := attempt?_eq_some_iff.mp ha
    obtain ⟨ho, hi⟩ := streams_prompt x
    rw [he] at ho hi
    refine ⟨?_, hi, ho⟩
    simpa [hd, perform, he] using (streams_accept y).2

end Execution
end ByteTape
