import ByteTape.Proofs.Machine.Carrying
import ByteTape.Proofs.Machine.Safety
import ByteTape.Proofs.Machine.Traffic
import ByteTape.Proofs.Stream.Events

/-! Runs and the events of their input. Each read is answered by the next event, and by nothing
else of the script, so that runs on scripts of the same events are the same. -/
namespace ByteTape

def Reading.answer (eof : EofPolicy) (ip : Nat) (cell : UInt8) : Reading → Except RunError UInt8
  | .byte b => .ok b
  | .ended =>
    match eof with
    | .error => .error (.inputExhausted ip)
    | .zero => .ok 0
    | .unchanged => .ok cell
  | .failed e => .error (.stream ip e)

namespace Execution
variable {σ : Type} {x y z : Execution σ} {s : Source}

/-- The reading is taken from the input and decides what becomes of the current cell. -/
private theorem accept_eq (h : x.pointer < x.tape.size) :
    let answer := x.input.read.2.answer x.config.eof x.ip x.current
    ∃ t c, x.accept = ({ x with input := x.input.read.1, tape := t, cancel := c },
        (answer.map fun _ => ()).mapError .error) ∧
      ∀ j, t.get j = if j = x.pointer then answer.toOption.getD x.current else x.tape.get j := by
  have hsame (j : Nat) : x.tape.get j = if j = x.pointer then x.current else x.tape.get j := by
    split
    · rename_i hj
      rw [hj]
      rfl
    · rfl
  have hupdate (b : UInt8) := Tape.get_update h.le fun _ => b
  unfold accept
  rcases x.input.read with ⟨input, b | _ | e⟩
  · exact ⟨_, _, change_of_inside (x := x.heedInput input) h _, hupdate b⟩
  · dsimp only
    cases x.config.eof with
    | error => exact ⟨x.tape, _, rfl, hsame⟩
    | zero => exact ⟨_, _, change_of_inside (x := x.heedInput input) h _, hupdate 0⟩
    | unchanged => exact ⟨x.tape, _, rfl, hsame⟩
  · exact ⟨x.tape, _, rfl, hsame⟩

def withInput (s : Source) (x : Execution σ) : Execution σ := { x with input := s }

private theorem framed_withInput (s : Source) : Framed (withInput (σ := σ) s) :=
  ⟨fun _ => rfl, fun _ => rfl, fun _ _ _ => rfl, fun _ => rfl, fun _ => rfl⟩

private theorem record_withInput (s : Source) (i : Instruction) (before : Snapshot)
    (y : Execution σ) :
    (y.withInput s).record i before = ((y.record i before).1.withInput s, (y.record i before).2) :=
  (framed_withInput s).record rfl (fun _ => rfl) i before

private theorem change_withInput (f : UInt8 → UInt8) (x : Execution σ) :
    (x.withInput s).change f = ((x.change f).1.withInput s, (x.change f).2) := by
  cases h : x.tape.check x.pointer <;> simp [change, withInput, h]

private theorem jump_withInput (d : Direction) (x : Execution σ) :
    (x.withInput s).jump d = ((x.jump d).1.withInput s, (x.jump d).2) := by
  rcases h : x.memo.resolve x.program x.ip d with ⟨memo, _ | _⟩ <;> simp [jump, withInput, h]

private theorem accept_withInput (h : x.input.Alike s) :
    (x.withInput s).accept = (x.accept.1.withInput s.read.1, x.accept.2) := by
  obtain ⟨hanswer, hrest⟩ := h.read
  have hsource : (x.withInput s).input.read = s.read := rfl
  rcases hx : x.input.read with ⟨input, r⟩
  rcases hs : s.read with ⟨input', r'⟩
  rw [hx, hs] at hanswer hrest
  obtain rfl : r = r' := hanswer
  have heof : (x.withInput s).config.eof = x.config.eof := rfl
  have hheed : (x.withInput s).heedInput input' = (x.heedInput input).withInput input' := by
    have hrings : input.rings = input'.rings := hrest.rings
    simp only [heedInput, hrings]
    rfl
  rcases r with b | _ | e
  · simp only [accept, hsource, hx, hs, hheed]
    exact change_withInput _ _
  · simp only [accept, hsource, hx, hs, heof, hheed]
    cases x.config.eof with
    | error => rfl
    | zero => exact change_withInput _ _
    | unchanged => rfl
  · simp only [accept, hsource, hx, hs, hheed]
    rfl

variable [ByteOutput σ]

private theorem prompt_withInput (x : Execution σ) :
    (x.withInput s).prompt = (x.prompt.1.withInput s, x.prompt.2) := by
  rcases h : ByteOutput.flush x.output with ⟨o, e | _⟩ <;>
    simp [prompt, withInput, h, heedOutput, heed]

private theorem perform_withInput {i : Instruction} (h : i ≠ .read) (x : Execution σ) :
    (x.withInput s).perform i = ((x.perform i).1.withInput s, (x.perform i).2) := by
  have hcurrent : (x.withInput s).current = x.current := rfl
  cases i with
  | right => cases h : x.tape.check (x.pointer + 1) <;> simp [perform, moveTo, withInput, h]
  | left => by_cases h : x.pointer = 0 <;> simp [perform, withInput, h]
  | increment => exact change_withInput _ x
  | decrement => exact change_withInput _ x
  | write =>
    rcases h : ByteOutput.put x.output x.current with ⟨o, e | _⟩ <;>
      simp [perform, emit, withInput, h, heedOutput, heed]
  | read => exact absurd rfl h
  | loopOpen =>
    simp only [perform, hcurrent]
    split
    · exact jump_withInput _ x
    · rfl
  | loopClose =>
    simp only [perform, hcurrent]
    split
    · rfl
    · exact jump_withInput _ x

private theorem perform_alike (i : Instruction) (h : x.input.Alike s) :
    ∃ s', (x.perform i).1.input.Alike s' ∧
      (x.withInput s).perform i = ((x.perform i).1.withInput s', (x.perform i).2) := by
  by_cases hread : i = .read
  · subst hread
    have hinput := (streams_prompt x).2
    simp only [perform, prompt_withInput]
    rcases hp : x.prompt with ⟨y, e | _⟩ <;> rw [hp] at hinput
    · exact ⟨s, by rwa [hinput], rfl⟩
    · have hy : y.input.Alike s := by rwa [hinput]
      refine ⟨s.read.1, ?_, accept_withInput hy⟩
      rw [(streams_accept y).2]
      exact hy.read.2
  · refine ⟨s, ?_, perform_withInput hread x⟩
    by_cases hwrite : i = .write
    · rwa [hwrite, (streams_write x).2]
    · rwa [(streams_perform hwrite hread x).2]

/-- A read that comes to reading the input has the next event as its answer. -/
theorem read_of_flushed (h : x.pointer < x.tape.size)
    (hf : (ByteOutput.flush x.output).2 = .ok ()) :
    let answer := (x.input.event 0).answer x.config.eof x.ip x.current
    (x.perform .read).2 = (answer.map fun _ => ()).mapError .error ∧
    (x.perform .read).1.pointer = x.pointer ∧
    ∀ j, (x.perform .read).1.tape.get j =
      if j = x.pointer then answer.toOption.getD x.current else x.tape.get j := by
  rw [← x.input.read_event.1]
  rcases ho : ByteOutput.flush x.output with ⟨o, e | _⟩
  · rw [ho] at hf
    cases hf
  · have hprompt : x.prompt = (x.heedOutput o, .ok ()) := by simp [prompt, ho]
    obtain ⟨t, c, haccept, htape⟩ := accept_eq (x := x.heedOutput o) h
    simp only [perform, hprompt, haccept]
    exact ⟨rfl, rfl, htape⟩

private theorem attempt?_of_asks (ha : x.asks = true) (hf : ∀ e, ¬ x.Refused e) :
    ∃ y, x.attempt? = some y := by
  have hd := asks_iff.mp ha
  have hok : (ByteOutput.flush x.output).2 = .ok () := by
    rcases he : (ByteOutput.flush x.output).2 with e | _
    · exact absurd (.flush hd he) (hf e)
    · rfl
  obtain ⟨y, hy⟩ := exists_prompt hok
  exact ⟨y, attempt?_eq_some_iff.mpr ⟨hd, hy⟩⟩

/-- At each moment the events answered are those of the reads before. -/
theorem historic_events (input : Source) : Historic (σ := σ) fun past x =>
    ∀ j, x.input.event j = input.event ((past.filter asks).length + j) where
  signal past x w h := by cases w <;> exact h
  tick past x y h ht j := by
    obtain ⟨hidle, hread⟩ := x.input_tick
    rw [ht, Progress.state] at hidle hread
    cases ha : x.asks with
    | true =>
      obtain ⟨z, hz⟩ := attempt?_of_asks ha (not_refused_of_running ht)
      obtain ⟨hy, hinput, _⟩ := hread z hz
      rw [hy, hinput, x.input.read_event.2, h, List.filter_append, List.length_append]
      simp [ha, Nat.add_assoc, Nat.add_comm 1]
    | false =>
      have hnone : x.attempt? = none := by simp [attempt?, ha]
      rw [hidle hnone, h]
      simp [ha]

private theorem tick_withInput (h : x.input.Alike s) : ∃ s', x.tick.state.input.Alike s' ∧
    (x.withInput s).tick = x.tick.map (withInput s') := by
  obtain ⟨t, n, k, hstate⟩ := x.state_tick
  rw [hstate]
  cases hd : x.due? with
  | none =>
    refine ⟨s, h, (framed_withInput s).tickBy ?_⟩
    intro i hi
    refine ⟨rfl, fun hv => ?_⟩
    rw [due?_eq_some_iff.mpr ⟨hv, hi⟩] at hd
    cases hd
  | some i =>
    obtain ⟨s', hs', hperform⟩ := perform_alike i h
    have hd' : (x.withInput s).due? = some i := hd
    refine ⟨s', hs', ?_⟩
    rw [tick_of_due hd, tick_of_due hd']
    exact (framed_withInput s').executeBy rfl hperform fun y _ => record_withInput s' i _ y

private theorem drive_withInput (h : x.input.Alike s) (ws : List (Option Bool)) :
    ∃ s', (x.drive perform ws).state.input.Alike s' ∧
      (x.withInput s).drive perform ws = (x.drive perform ws).map (withInput s') := by
  induction ws generalizing x s with
  | nil => exact ⟨s, h, rfl⟩
  | cons w ws ih =>
    have hsignal : (x.withInput s).signal w = (x.signal w).withInput s := by cases w <;> rfl
    have hinput : (x.signal w).input = x.input := by cases w <;> rfl
    obtain ⟨s', hs', htick⟩ := tick_withInput (x := x.signal w) (hinput ▸ h)
    simp only [drive, tickBy_perform, hsignal, htick]
    cases ht : (x.signal w).tick with
    | running y =>
      rw [ht] at hs'
      exact ih hs'
    | ended y result =>
      rw [ht] at hs'
      exact ⟨s', hs', rfl⟩

end Execution

namespace Machine
open Execution
variable {σ : Type} [ByteOutput σ]

private theorem runBy_of_alike (m : Machine) (ws : List (Option Bool)) {input input' : Source}
    (output : σ) (h : input.Alike input') :
    ∃ rest, (m.runBy perform ws input output).state.input.Alike rest ∧
      m.runBy perform ws input' output = (m.runBy perform ws input output).map (withInput rest) := by
  obtain ⟨rest, hrest, hdrive⟩ := drive_withInput (x := m.start input output) h ws
  have hstart : (m.start input output).withInput input' = m.start input' output := rfl
  rw [hstart] at hdrive
  unfold runBy
  rw [hdrive]
  refine ⟨rest, ?_, ?_⟩
  · cases hd : (m.start input output).drive perform ws with
    | running x =>
      rw [hd] at hrest
      exact hrest
    | ended x result =>
      rw [hd] at hrest
      obtain ⟨o, t, hx⟩ := x.conclude_eq result
      show (x.conclude result).1.input.Alike rest
      rw [hx]
      exact hrest
  · cases (m.start input output).drive perform ws with
    | running x => rfl
    | ended x result =>
      have hconclude := conclude_map (f := withInput (σ := σ) rest) (fun _ => rfl) (fun _ => rfl)
        (fun _ => rfl) (fun _ _ => rfl) (fun _ _ => rfl) x result
      simp only [Progress.map, hconclude]

/-- The reads of a run are answered by the events of its input, each by the next one. A byte is
stored, a mark of the end does what the policy says, and any other failure of the input is that of
the run. Runs at inputs of the same events are the same in all else, and nothing but the events is
changed by dividing stretches, by interrupted reads and by further marks at the end. -/
theorem reads_answered_by_events (p : Program) (c : Config) (es : List (Event σ))
    (ws : List (Option Bool)) (input : Source) (output : σ) :
    let m := (Machine.new p c).after es
    let run := m.runBy perform ws input output
    (∀ before z behind,
      (m.start input output).trail perform ws = before ++ z :: behind →
      let k := (before.filter asks).length
      (∀ j, z.input.event j = input.event (k + j)) ∧
      (z.due? = some .read → (ByteOutput.flush z.output).2 = .ok () →
        match (input.event k).answer c.eof z.ip z.current with
        | .ok b => (z.perform .read).2 = .ok () ∧ z.tick.state.pointer = z.pointer ∧
            ∀ j, z.tick.state.tape.get j = if j = z.pointer then b else z.tape.get j
        | .error e => ∃ x, run = .ended x (.error (.error e)) ∧ x.LooksLike z.toMachine)) ∧
    (∀ input', input.Alike input' → ∃ rest, run.state.input.Alike rest ∧
      m.runBy perform ws input' output = run.map (withInput rest)) ∧
    ∀ items, Relation.EqvGen Source.Rescripted input.items items →
      input.Alike { input with items := items } := by
  intro m run
  have hm : m.Remembers ∧ m.Inside p :=
    (lasting_inside p).after ⟨remembers_new p c, inside_new p c⟩ es
  have hconfig : m.config = c := (lasting_config (σ := σ) c).after (m := Machine.new p c) rfl es
  refine ⟨?_, fun _ h => runBy_of_alike m ws output h, fun _ h => Source.alike_of_rescripted h⟩
  intro before z behind hz k
  have hevents : ∀ j, z.input.event j = input.event (k + j) :=
    (historic_events input).moment (fun j => by simp [start]) hz
  refine ⟨hevents, fun hd hf => ?_⟩
  have hmem : z ∈ (m.start input output).trail perform ws := by simp [hz]
  have hb := (steady_bounded p).trail (bounded_start hm input output) ws z hmem
  have hzconfig := (steady_of_lasting (lasting_config (σ := σ) c)).trail
    (x := m.start input output) hconfig ws z hmem
  obtain ⟨hresult, hpointer, htape⟩ := read_of_flushed hb.inside.pointer hf
  obtain ⟨t, n, i, hstate⟩ := z.state_tick
  rw [hevents 0, hzconfig, Nat.add_zero] at hresult htape
  rw [hstate, hd]
  cases hanswer : (input.event k).answer c.eof z.ip z.current with
  | ok b =>
    rw [hanswer] at hresult htape
    exact ⟨hresult, hpointer, htape⟩
  | error e =>
    rw [hanswer] at hresult
    have hfailed : z.perform .read = ((z.perform .read).1, .error (.error e)) :=
      Prod.ext rfl hresult
    have htick : z.tick = .ended (z.perform .read).1 (.error (.error e)) := by
      rw [tick_of_due hd, executeBy, hfailed]
    obtain ⟨hlook, _⟩ := perform_error hfailed
    exact ⟨_, runBy_of_failed hmem htick, hlook.tape, hlook.pointer, hlook.ip, hlook.steps,
      hlook.memo⟩

/-- The second read meets a mark of the end, behind an interrupted read that is not seen and ahead
of a byte that is not reached. -/
theorem exhausted_ahead_of_data :
    ∃ x rest, (Machine.new (.ofList [',', '.', ',']) {}).runBy perform (List.replicate 3 none)
        (.ofItems [.data [7], .failure (.ofKind .interrupted), .ended, .data [9]]) Sink.unlimited =
          .ended x (.error (.error (.inputExhausted 2))) ∧
      (Machine.new (.ofList [',', '.', ',']) {}).runBy perform (List.replicate 3 none)
        (.ofItems [.data [7], .ended, .data [9]]) Sink.unlimited =
          .ended (x.withInput rest) (.error (.error (.inputExhausted 2))) := by
  obtain ⟨hreads, halike, hscripts⟩ := reads_answered_by_events (.ofList [',', '.', ',']) {} []
    (List.replicate 3 none)
    (.ofItems [.data [7], .failure (.ofKind .interrupted), .ended, .data [9]]) Sink.unlimited
  obtain ⟨x, hrun, _⟩ := (hreads [_, _] _ [] rfl).2 rfl rfl
  have hshort := hscripts [.data [7], .ended, .data [9]]
    (.symm _ _ (.rel _ _ (.interrupted [.data [7]] _ _ rfl)))
  obtain ⟨rest, _, hrun'⟩ := halike _ hshort
  rw [hrun] at hrun'
  exact ⟨x, rest, hrun, hrun'⟩

end Machine
end ByteTape
