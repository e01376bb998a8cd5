import ByteTape.Proofs.Ideal.Machine
import ByteTape.Proofs.Machine.Growth

/-! The growing tape as an unbounded one. Seen through its cells, of which those beyond its end
are 0, the machine goes on as the one on an unbounded tape, and the length of its tape tells how
far the pointer has come. -/
namespace ByteTape
open ByteTape.Bracket

/-- What a machine at work shows of itself: the cells of its tape, but not their number. -/
def Execution.ideal {σ : Type} (x : Execution σ) : Ideal σ where
  program := x.program
  config := x.config
  cells := x.tape.get
  pointer := x.pointer
  ip := x.ip
  steps := x.steps
  cancel := x.cancel
  tracer := x.tracer
  input := x.input
  output := x.output

/-- A run is where the run on an unbounded tape is, and has ended with the same result if it
has ended. -/
inductive Ideal.Simulates {σ : Type} : ByteTape.Progress σ → Ideal.Progress σ → Prop
  | running (x : Execution σ) : Simulates (.running x) (.running x.ideal)
  | ended (x : Execution σ) (result : Except RunError Unit) :
    Simulates (.ended x (result.mapError .error)) (.ended x.ideal result)

namespace Execution
variable {σ : Type} {x y : Execution σ}

structure Mirrored (a : Execution σ × Except Fault Unit) (b : Ideal σ × Except RunError Unit) :
    Prop where
  state : b.1 = a.1.ideal
  result : a.2 = b.2.mapError .error

private theorem Mirrored.eqs {a : Execution σ × Except Fault Unit}
    {b : Ideal σ × Except RunError Unit}
    (h : Mirrored a b) : ∃ y r, a = (y, r.mapError .error) ∧ b = (y.ideal, r) :=
  ⟨a.1, b.2, Prod.ext rfl h.result, Prod.ext h.state rfl⟩

private theorem ideal_update (h : x.pointer < x.tape.size) (f : UInt8 → UInt8) :
    ({ x with tape := x.tape.update x.pointer f } : Execution σ).ideal =
      x.ideal.put (f x.current) := by
  have hcells : (x.tape.update x.pointer f).get =
      Function.update x.tape.get x.pointer (f x.current) := by
    funext i
    rw [Tape.get_update h.le, Function.update_apply]
    rfl
  simp only [ideal, hcells, Ideal.put]

private theorem mirrored_change (h : x.pointer < x.tape.size) (f : UInt8 → UInt8) :
    Mirrored (x.change f) (x.ideal.put (f x.current), .ok ()) := by
  rw [change_of_inside h]
  exact ⟨(ideal_update h f).symm, rfl⟩

private theorem mirrored_accept (h : x.pointer < x.tape.size) :
    Mirrored x.accept x.ideal.accept := by
  have hread : x.ideal.input.read = x.input.read := rfl
  rcases hr : x.input.read with ⟨input, b | _ | e⟩
  · simp only [accept, Ideal.accept, hread, hr]
    exact mirrored_change (x := x.heedInput input) h _
  · simp only [accept, Ideal.accept, hread, hr]
    have hpolicy : x.ideal.config.eof = x.config.eof := rfl
    cases he : x.config.eof with
    | error =>
      simp only [hpolicy, he]
      exact ⟨rfl, rfl⟩
    | zero =>
      simp only [hpolicy, he]
      exact mirrored_change (x := x.heedInput input) h _
    | unchanged =>
      simp only [hpolicy, he]
      exact ⟨rfl, rfl⟩
  · simp only [accept, Ideal.accept, hread, hr]
    exact ⟨rfl, rfl⟩

/-- A jump that the memo knows is the one that a scan would find. -/
private theorem mirrored_bracket [ByteOutput σ] {i : Instruction} {d : Direction}
    (hr : x.Remembers) (hi : x.program.get? x.ip = some i.symbol) (hd : i.direction? = some d) :
    Mirrored (x.perform i) (if x.calls d then x.ideal.jump d else (x.ideal, .ok ())) := by
  have hb : x.program.get? x.ip = some d.bracket := by
    rw [hi, Instruction.direction?_eq_some_iff.mp hd]
  rcases bracket_cases hr hi hd with ⟨hc, hx⟩ | ⟨hc, j, hp, hx⟩ | ⟨hc, hp, hx⟩
  · rw [hx, hc]
    exact ⟨rfl, rfl⟩
  · have hscan : scan x.ideal.program x.ideal.ip d = .ok j := (scan_eq_ok_iff_partner hb).mpr hp
    rw [hx, hc, if_pos rfl, Ideal.jump, hscan]
    exact ⟨rfl, rfl⟩
  · have hscan : scan x.ideal.program x.ideal.ip d = .error (.unmatchedBracket x.ip d.side) :=
      scan_of_unpaired hb hp
    rw [hx, hc, if_pos rfl, Ideal.jump, hscan]
    exact ⟨rfl, rfl⟩

variable [ByteOutput σ]

/-- An instruction does the same on both tapes. -/
theorem mirrored_perform {i : Instruction} (hr : x.Remembers) (h : x.pointer < x.tape.size)
    (hi : x.program.get? x.ip = some i.symbol) : Mirrored (x.perform i) (x.ideal.perform i) := by
  have hcurrent : x.ideal.current = x.current := rfl
  cases i with
  | right =>
    have hc : x.tape.check (x.pointer + 1) = .ok () := Tape.check_eq_ok_iff.mpr h
    simp only [perform, moveTo, hc, Ideal.perform]
    refine ⟨?_, rfl⟩
    simp only [ideal, funext (x.tape.get_reach (x.pointer + 1))]
  | left =>
    simp only [perform, Ideal.perform]
    by_cases hz : x.pointer = 0
    · rw [if_pos hz, if_pos (show x.ideal.pointer = 0 from hz)]
      exact ⟨rfl, rfl⟩
    · rw [if_neg hz, if_neg (show ¬ x.ideal.pointer = 0 from hz)]
      exact ⟨rfl, rfl⟩
  | increment => exact mirrored_change h _
  | decrement => exact mirrored_change h _
  | write =>
    have houtput : x.ideal.output = x.output := rfl
    simp only [perform, emit, Ideal.perform, houtput, hcurrent]
    rcases ByteOutput.put x.output x.current with ⟨o, e | _⟩
    · exact ⟨rfl, rfl⟩
    · exact ⟨rfl, rfl⟩
  | read =>
    have houtput : x.ideal.output = x.output := rfl
    simp only [perform, prompt, Ideal.perform, houtput]
    rcases ByteOutput.flush x.output with ⟨o, e | _⟩
    · exact ⟨rfl, rfl⟩
    · exact mirrored_accept (x := x.heedOutput o) h
  | loopOpen =>
    have hm := mirrored_bracket hr hi rfl
    simpa [Ideal.perform, hcurrent, calls] using hm
  | loopClose =>
    have hm := mirrored_bracket hr hi rfl
    by_cases hz : x.current = 0
    · simpa [Ideal.perform, hcurrent, calls, hz] using hm
    · simpa [Ideal.perform, hcurrent, calls, hz] using hm

omit [ByteOutput σ] in
private theorem row_congr {i : Instruction} {before : Snapshot} (hsteps : x.steps = y.steps)
    (hip : x.ip = y.ip) (hpointer : x.pointer = y.pointer) (hcurrent : x.current = y.current) :
    x.row i before = y.row i before := by
  have haction : x.action i before = y.action i before := by
    unfold action
    rw [hip, hpointer, hcurrent]
  simp only [row, hsteps, haction]

omit [ByteOutput σ] in
private theorem row_ideal (i : Instruction) (before : Snapshot) (x : Execution σ) :
    x.ideal.row i before = x.row i before := by
  refine row_congr rfl rfl rfl ?_
  simp [Machine.current, Tape.get, ideal, Ideal.current, Array.getElem_push]

omit [ByteOutput σ] in
private theorem mirrored_record (i : Instruction) (before : Snapshot) (x : Execution σ) :
    Mirrored (x.record i before) (x.ideal.record i before) := by
  have htracer : x.ideal.tracer = x.tracer := rfl
  simp only [record, Ideal.record, htracer, row_ideal]
  cases x.tracer with
  | none => exact ⟨rfl, rfl⟩
  | some t =>
    rcases hw : t.row (x.row i before) with ⟨t', e | _⟩
    · simp only [hw]
      exact ⟨rfl, rfl⟩
    · simp only [hw]
      exact ⟨rfl, rfl⟩

private theorem simulates_execute {i : Instruction}
    (h : Mirrored (x.perform i) (x.ideal.perform i)) :
    Ideal.Simulates (x.executeBy perform i) (x.ideal.execute i) := by
  have hbefore : x.ideal.snapshot = x.snapshot := rfl
  obtain ⟨y, r, hx, hideal⟩ := h.eqs
  simp only [executeBy, Ideal.execute, hx, hideal, hbefore]
  rcases r with e | _
  · exact .ended y (.error e)
  · obtain ⟨z, r, hy, hideal⟩ := (mirrored_record i x.snapshot y).eqs
    simp only [Except.mapError, hy, hideal]
    rcases r with e | _
    · exact .ended z (.error e)
    · exact .running { z with steps := z.steps + 1, ip := z.ip + 1 }

private theorem simulates_tick (hr : x.Remembers) (h : x.pointer < x.tape.size) :
    Ideal.Simulates x.tick x.ideal.tick := by
  have hchar : x.ideal.program.get? x.ideal.ip = x.program.get? x.ip := rfl
  have hveto : x.ideal.veto = x.veto := rfl
  rw [← tickBy_perform]
  rcases x.tickBy_cases perform with ⟨hc, he⟩ | ⟨c, hc, hi, he⟩ | ⟨i, e, hc, hv, he⟩ |
    ⟨i, hc, hv, he⟩
  · rw [he]
    simp only [Ideal.tick, hchar, hc]
    exact .ended x (.ok ())
  · rw [he]
    simp only [Ideal.tick, hchar, hc, hi]
    exact .running { x with ip := x.ip + 1 }
  · rw [he]
    simp only [Ideal.tick, hchar, hc, Instruction.ofChar?_symbol, hveto, hv]
    exact .ended x (.error e)
  · rw [he]
    simp only [Ideal.tick, hchar, hc, Instruction.ofChar?_symbol, hveto, hv]
    exact simulates_execute (mirrored_perform hr h hc)

variable {p : Program}

private theorem simulates_drive (h : x.Bounded p) (ws : List (Option Bool)) :
    Ideal.Simulates (x.drive perform ws) (x.ideal.drive ws) ∧
    x.ideal.trail ws = (x.trail perform ws).map ideal := by
  induction ws generalizing x with
  | nil => exact ⟨.running x, rfl⟩
  | cons w ws ih =>
    have hw := (steady_bounded p).signal x w h
    have hsignal : x.ideal.signal w = (x.signal w).ideal := by cases w <;> rfl
    have hsim := simulates_tick hw.remembers hw.inside.pointer
    simp only [drive, trail, Ideal.drive, Ideal.trail, hsignal, tickBy_perform, List.map_cons]
    generalize hideal : (x.signal w).ideal.tick = r at hsim
    cases ht : (x.signal w).tick with
    | running y =>
      rw [ht] at hsim
      cases hsim
      obtain ⟨hdrive, htrail⟩ := ih ((steady_bounded p).tick _ y hw ht)
      exact ⟨hdrive, congrArg _ htrail⟩
    | ended y result =>
      rw [ht] at hsim
      cases hsim with
      | ended _ result => exact ⟨.ended y result, rfl⟩

private theorem mirrored_conclude (x : Execution σ) (result : Except RunError Unit) :
    Mirrored (x.conclude (result.mapError .error)) (x.ideal.conclude result) := by
  rw [conclude_mapError]
  refine ⟨?_, rfl⟩
  obtain ⟨⟨p, c, t, i, j, k, memo, cancel, tracer⟩, input, output⟩ := x
  cases tracer <;> rfl

end Execution

namespace Machine
open Execution
variable {σ : Type} [ByteOutput σ]

private theorem simulates_runBy {p : Program} {m : Machine} {input : Source} {output : σ}
    (h : (m.start input output).Bounded p) (ws : List (Option Bool)) :
    Ideal.Simulates (m.runBy perform ws input output) ((m.start input output).ideal.run ws) := by
  have hsim := (simulates_drive h ws).1
  unfold runBy Ideal.run
  generalize (m.start input output).ideal.drive ws = r at hsim
  generalize (m.start input output).drive perform ws = d at hsim
  cases hsim with
  | running x => exact .running x
  | ended x result =>
    obtain ⟨y, result, hx, hideal⟩ := (mirrored_conclude x result).eqs
    simp only [hx, hideal]
    exact .ended y result

/-- The growing tape behaves as an unbounded one. Whatever has been run before, a run goes tick
by tick with the run on a tape that has a zero at every index, and to the same result. There are
just so many cells as the pointer has needed so far, and a tick changes no other cell than the
one under the pointer, by one of three instructions. -/
theorem refines_unbounded_tape (p : Program) (c : Config) (es : List (Event σ))
    (ws : List (Option Bool)) (input : Source) (output : σ) :
    let m := (Machine.new p c).after es
    let start := m.start input output
    let ideal := Ideal.start p c m.cancel m.tracer input output
    ideal.trail ws = (start.trail perform ws).map Execution.ideal ∧
    Ideal.Simulates (start.drive perform ws) (ideal.drive ws) ∧
    Ideal.Simulates (m.runBy perform ws input output) (ideal.run ws) ∧
    (∀ k x, (start.states ws)[k]? = some x →
      x.tape.size = furthest ((start.states ws).take (k + 1)) + 1) ∧
    (m.runBy perform ws input output).state.tape = (start.drive perform ws).state.tape ∧
    ∀ x ∈ start.trail perform ws, ∀ j, x.tick.state.tape.get j ≠ x.tape.get j →
      j = x.pointer ∧ ∃ (i : Instruction) (f : UInt8 → UInt8), p.get? x.ip = some i.symbol ∧
        i.Changes f ∧ x.tick.state.tape.get j = f (x.tape.get j) := by
  intro m start ideal
  have hm : m.Remembers ∧ m.Inside p :=
    (lasting_inside p).after ⟨remembers_new p c, inside_new p c⟩ es
  have hstart : start.Bounded p := bounded_start hm input output
  have hconfig : m.config = c := (lasting_config (σ := σ) c).after (m := Machine.new p c) rfl es
  have hideal : start.ideal = ideal := by
    have hcells : Tape.blank.get = fun _ => 0 := funext Tape.get_blank
    simp only [Execution.ideal, start, Machine.start, rewind, hm.2.program, hconfig, hcells,
      ideal, Ideal.start]
  rw [← hideal]
  obtain ⟨hdrive, htrail⟩ := simulates_drive hstart ws
  refine ⟨htrail, hdrive, simulates_runBy hstart ws,
    fun k x hx => size_eq_furthest hstart rfl rfl ws hx, ?_, ?_⟩
  · obtain ⟨o, t, he⟩ := m.state_runBy perform ws input output
    rw [he]
  · intro x hx j hj
    have hb := (steady_bounded p).trail hstart ws x hx
    have hget := get_tick hb.remembers hb.inside.pointer hj
    rwa [hb.inside.program] at hget

/-- The pointer goes to the second cell, increments it and comes back. Both cells stay. -/
theorem two_cells_after_return :
    ∃ (start x z : Execution Sink), start = (Machine.new (.ofList ['>', '+', '<']) {}).start
        (.ofBytes []) Sink.unlimited ∧
      (start.states (List.replicate 3 none))[3]? = some x ∧ x.pointer = 0 ∧ x.tape.size = 2 ∧
      z ∈ start.trail perform (List.replicate 3 none) ∧ z.tick.state.tape.get 1 ≠ z.tape.get 1 ∧
      ∃ (i : Instruction) (f : UInt8 → UInt8), i.Changes f ∧
        z.tick.state.tape.get 1 = f (z.tape.get 1) := by
  obtain ⟨_, _, _, hsize, _, hget⟩ := refines_unbounded_tape (.ofList ['>', '+', '<']) {} []
    (List.replicate 3 none) (.ofBytes []) Sink.unlimited
  obtain ⟨_, i, f, _, hf, hcell⟩ := hget _ (.tail _ (.head _)) 1 (by decide)
  exact ⟨_, _, _, rfl, rfl, rfl, hsize 3 _ rfl, .tail _ (.head _), by decide, i, f, hf, hcell⟩

end Machine
end ByteTape
