import ByteTape.Proofs.Machine.OutputFaults
import ByteTape.Proofs.Machine.TableFaults
import ByteTape.Proofs.Machine.Transcription

/-! Runs on a device behind a line buffer, beside runs on a device that takes each byte at once. As
long as the buffer can be emptied they come to the same; on a device with no room only a run that
prints nothing can end well. -/
namespace ByteTape
namespace Execution

section Printed
variable {σ : Type} [ByteOutput σ] {w : ByteOutput.Transcription σ} {x z : Execution σ} {n : Nat}

private theorem printed?_transcribed (h : x.cancel ≠ some true) :
    (x.transcribed w).printed? = x.printed? := by
  unfold printed?
  rw [due?_transcribed h]
  rfl

private theorem printed_transcribed (hx : x.Undisturbed w)
    (h : ∀ z ∈ x.trail perform (List.replicate n none), ∀ e, ¬ z.Refused e) :
    ((x.transcribed w).trail perform (List.replicate n none)).filterMap printed? =
      (x.trail perform (List.replicate n none)).filterMap printed? := by
  rw [(drive_transcribed hx h).2, List.filterMap_map]
  exact List.filterMap_congr fun z hz => printed?_transcribed (hx.moment hz).cancel

private theorem exists_stride_of_write (hd : x.due? = some .write) (h : ∀ e, ¬ x.Refused e) :
    ∃ y, x.stride? = some ⟨x, .write, y⟩ := by
  rcases hp : ByteOutput.put x.output x.current with ⟨o, e | _⟩
  · exact absurd (.write hd (by rw [hp])) (h e)
  · refine ⟨x.heedOutput o, ?_⟩
    exact stride?_eq_some_iff.mpr ⟨rfl, hd, by simp only [perform, emit, hp]⟩

/-- A run that the output never fails under prints nothing if it carries out no write, and only
then. -/
theorem printed_eq_nil_iff {moments : List (Execution σ)} (h : ∀ z ∈ moments, ∀ e, ¬ z.Refused e) :
    moments.filterMap printed? = [] ↔
      ∀ s ∈ moments.filterMap stride?, s.instruction ≠ .write := by
  rw [List.filterMap_eq_nil_iff]
  constructor
  · intro hnone s hs hwrite
    obtain ⟨z, hz, hstride⟩ := List.mem_filterMap.mp hs
    obtain ⟨_, hd, _⟩ := stride?_eq_some_iff.mp hstride
    have hprinted := hnone z hz
    rw [printed?, if_pos (hd.trans (congrArg some hwrite))] at hprinted
    cases hprinted
  · intro hsilent z hz
    refine if_neg fun hd => ?_
    obtain ⟨y, hy⟩ := exists_stride_of_write hd (h z hz)
    exact hsilent _ (List.mem_filterMap.mpr ⟨z, hz, hy⟩) rfl

private theorem bytes_of_printed_nil {x z : Execution Transcript} {ws : List (Option Bool)}
    (hx : x.output.bytes = []) (h : (x.trail perform ws).filterMap printed? = [])
    (hz : z ∈ x.trail perform ws) : z.output.bytes = [] := by
  obtain ⟨before, behind, hsplit⟩ := List.append_of_mem hz
  have hbytes := (historic_stored Transcript.account []).moment
    (x := x) (by simpa [Transcript.account] using hx) hsplit
  rw [hsplit, List.filterMap_append] at h
  rwa [(List.append_eq_nil_iff.mp h).1] at hbytes

end Printed

/-- What writes keep of a device, a run keeps of the device behind its buffer. -/
theorem firm_device {P : Sink → Prop} (hP : ∀ d bytes, P d → P (Sink.write d bytes).1) :
    Firm fun x : Execution LineBuffered => P x.output.device where
  signal x v h := by cases v <;> exact h
  tick x h := by
    rcases x.output_tick with ⟨_, ho⟩ | ⟨_, ho⟩ | ⟨_, _, ho⟩
    · rw [ho]
      exact LineBuffered.device_put hP h _
    · rw [ho]
      exact LineBuffered.device_transfer hP h
    · rwa [ho]

end Execution

namespace Machine
open Execution
variable {m : Machine} {p : Program} {n : Nat} {input : Source} {d : Sink}
  {x : Execution LineBuffered} {result : Except Fault Unit}

/-- A machine in bounds that writes to a buffer in front of the empty device `d`. Its flag is not
set, and neither stream will set it. -/
structure Piped (p : Program) (m : Machine) (input : Source) (d : Sink) : Prop where
  bounds : m.Remembers ∧ m.Inside p
  flag : m.cancel ≠ some true
  input : input.Silent
  silent : d.alarm = none
  empty : d.stored = #[]

def Unrefused (m : Machine) (n : Nat) (input : Source) (d : Sink) : Prop :=
  ∀ z ∈ (m.start input (LineBuffered.ofSink d)).trail perform (List.replicate n none),
    ∀ e, ¬ z.Refused e

structure Unhindered (m : Machine) (n : Nat) (input : Source) (d : Sink) : Prop where
  moments : m.Unrefused n input d
  last : ∀ y r, (m.start input (LineBuffered.ofSink d)).drive perform (List.replicate n none) =
    .ended y r → (ByteOutput.flush y.output).2 = .ok ()

theorem unhindered_of_sturdy (h : d.Sturdy) : m.Unhindered n input d :=
  have hgood : LineBuffered.unfailing.good (m.start input (LineBuffered.ofSink d)).output := h
  ⟨fun _ => not_refused_of_unfailing _ hgood, fun _ _ => flush_of_unfailing _ hgood⟩

def printing (m : Machine) (n : Nat) (input : Source) : List UInt8 :=
  ((m.unflagged.start input Sink.unlimited).trail perform (List.replicate n none)).filterMap
    printed?

section Direct
variable (hinput : input.Silent)

theorem good_direct (m : Machine) (input : Source) :
    Sink.unfailing.good (m.start input Sink.unlimited).output := ⟨rfl, rfl⟩

include hinput

theorem undisturbed_direct :
    (m.unflagged.start input Sink.unlimited).Undisturbed Sink.transcription :=
  ⟨nofun, hinput, rfl⟩

private theorem run_direct (hm : m.Remembers ∧ m.Inside p) :
    m.unflagged.run n input (⟨[]⟩ : Transcript) =
      (m.unflagged.run n input Sink.unlimited).map
        fun r => (r.1.transcribed Sink.transcription, r.2) :=
  run_transcribed ((lasting_inside (σ := Sink) p).cancel m _ hm) (undisturbed_direct hinput)
    (fun _ => not_refused_of_unfailing _ (good_direct _ input))
    fun _ _ => flush_of_unfailing _ (good_direct _ input)

private theorem printed_transcript : ((m.unflagged.start input (⟨[]⟩ : Transcript)).trail perform
    (List.replicate n none)).filterMap printed? = m.printing n input :=
  printed_transcribed (undisturbed_direct hinput)
    fun _ => not_refused_of_unfailing _ (good_direct _ input)

end Direct

namespace Piped
variable (h : Piped p m input d)
include h

theorem undisturbed :
    (m.start input (LineBuffered.ofSink d)).Undisturbed LineBuffered.transcription :=
  ⟨h.flag, h.input, h.silent⟩

private theorem written_start : LineBuffered.transcription.written (.ofSink d) = [] := by
  simp [LineBuffered.transcription, LineBuffered.written, LineBuffered.ofSink, h.empty]

private theorem transcribed_start : (m.start input (LineBuffered.ofSink d)).transcribed
    LineBuffered.transcription = m.unflagged.start input (⟨[]⟩ : Transcript) := by
  rw [← h.written_start]
  rfl

/-- A run through a line buffer comes to what the run on a device itself comes to, as long as
nothing hinders it. -/
theorem run_eq (hfree : m.Unhindered n input d) :
    (m.run n input (LineBuffered.ofSink d)).map
        (fun r => (r.1.transcribed LineBuffered.transcription, r.2)) =
      (m.unflagged.run n input Sink.unlimited).map
        fun r => (r.1.transcribed Sink.transcription, r.2) := by
  rw [← run_direct h.input h.bounds,
    ← run_transcribed h.bounds h.undisturbed hfree.moments hfree.last, h.written_start]

/-- What an unhindered run has printed stands on the device. -/
theorem stored_eq (hfree : m.Unhindered n input d)
    (hrun : m.run n input (LineBuffered.ofSink d) = some (x, result)) :
    x.output.device.stored.toList = x.output.written := by
  obtain ⟨y, own, hy, rfl, _⟩ := exists_ended_of_run h.bounds hrun
  exact LineBuffered.stored_of_transfer (Prod.ext rfl (hfree.last _ _ hy))

/-- A run that was not refused anything has put all on the buffer that there is to print. -/
private theorem written_of_ended {y : Execution LineBuffered} (hfree : m.Unrefused n input d)
    (hd : (m.start input (LineBuffered.ofSink d)).drive perform (List.replicate n none) =
      .ended y result) : y.output.written = m.printing n input := by
  have hdrive := (drive_transcribed h.undisturbed hfree).1
  rw [h.transcribed_start, hd] at hdrive
  have hnever (z : Execution Transcript) (e : StreamError) : ¬ z.Refused e := by
    rintro (⟨_, failed⟩ | ⟨_, failed⟩) <;> cases failed
  rw [← printed_transcript h.input]
  exact stored_of_ended Transcript.account hdrive fun z _ => hnever z

/-- A run on a buffer, whatever its device, ends if the run on a device that takes all does. -/
theorem isSome_of_direct (hsome : (m.unflagged.run n input Sink.unlimited).isSome) :
    (m.run n input (LineBuffered.ofSink d)).isSome := by
  rw [isSome_run]
  by_cases hfree : m.Unrefused n input d
  · have hdrive := (drive_transcribed h.undisturbed hfree).1
    have hdirect := congrArg Option.isSome (run_direct (n := n) h.input h.bounds)
    rw [Option.isSome_map, hsome, isSome_run, ← h.transcribed_start, hdrive] at hdirect
    rw [← hdirect]
    cases (m.start input (LineBuffered.ofSink d)).drive perform (List.replicate n none) <;> rfl
  · simp only [Unrefused, not_forall, not_not] at hfree
    obtain ⟨z, hz, e, hr⟩ := hfree
    rw [result?_of_refused hz hr]
    rfl

section Full
variable (hroom : d.room = some 0)
include hroom

omit h in
private theorem firm_full : Firm fun x : Execution LineBuffered => x.output.device = d := by
  have hkept (s : Sink) (bytes : List UInt8) (hs : s = d) : (s.write bytes).1 = d := by
    rw [hs, Sink.write_of_room hroom]
  exact firm_device (P := fun s => s = d) hkept

/-- On a device with no room a flush fails if anything has been put on the buffer. -/
private theorem flush_full {o : LineBuffered} (ho : o.device = d) :
    (ByteOutput.flush o).2 = if o.written = [] then .ok () else .error d.refusal := by
  subst ho
  exact congrArg Prod.snd (LineBuffered.transfer_of_room hroom h.empty)

theorem device_of_run (hrun : m.run n input (LineBuffered.ofSink d) = some (x, result)) :
    x.output.device = d := by
  obtain ⟨y, own, hy, rfl, _⟩ := exists_ended_of_run h.bounds hrun
  have hd : y.output.device = d := (firm_full hroom).ended rfl hy
  subst hd
  exact congrArg (fun r => LineBuffered.device r.1)
    (LineBuffered.transfer_of_room hroom h.empty)

/-- A device with no room does not hinder a run that prints nothing. -/
theorem unhindered_of_silent (hsilent : m.printing n input = []) : m.Unhindered n input d := by
  have hmoments : m.Unrefused n input d := by
    intro z hz e hr
    -- The moments up to a refusal are moments of the transcript, and nothing stands on that.
    have hprefix := trail_prefix_transcribed (w := LineBuffered.transcription)
      (m.start input (LineBuffered.ofSink d)) (List.replicate n none)
    rw [h.transcribed_start] at hprefix
    have hmoment := hprefix.subset (List.mem_map_of_mem hz)
    rw [← printed_transcript h.input] at hsilent
    rcases hr with ⟨due, _⟩ | ⟨_, failed⟩
    · have hnone := List.filterMap_eq_nil_iff.mp hsilent _ hmoment
      rw [printed?_transcribed (h.undisturbed.moment hz).cancel, printed?, if_pos due] at hnone
      cases hnone
    · have hwritten : z.output.written = [] := bytes_of_printed_nil rfl hsilent hmoment
      rw [h.flush_full hroom ((firm_full hroom).steady.trail rfl _ z hz), if_pos hwritten] at failed
      cases failed
  refine ⟨hmoments, fun y r hd => ?_⟩
  rw [h.flush_full hroom ((firm_full hroom).ended rfl hd),
    if_pos ((h.written_of_ended hmoments hd).trans hsilent)]

/-- On a device with no room only a run that prints nothing ends well. -/
theorem silent_of_ok (hrun : m.run n input (LineBuffered.ofSink d) = some (x, .ok ())) :
    m.printing n input = [] := by
  obtain ⟨y, own, hy, rfl, hok⟩ := exists_ended_of_run h.bounds hrun
  have hflush := flush_of_conclude_ok hok.symm
  have hfree : m.Unrefused n input d := by
    intro z hz e hr
    have hresult := result?_of_refused hz hr
    rw [hy] at hresult
    rcases own with e | _
    · cases hok.trans (congrArg Prod.snd (y.conclude_error e))
    · cases hresult
  rw [← h.written_of_ended hfree hy]
  by_contra hwritten
  rw [h.flush_full hroom ((firm_full hroom).ended rfl hy), if_neg hwritten] at hflush
  cases hflush

end Full

end Piped

end Machine
end ByteTape
