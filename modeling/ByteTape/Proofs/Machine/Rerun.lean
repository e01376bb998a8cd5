import ByteTape.Proofs.Machine.Remembered
import ByteTape.Proofs.Machine.Scanning
import ByteTape.Proofs.Machine.Untraced

/-! Runs after other runs. A machine keeps its memo and its tracer from run to run, but a
memo cannot be observed and a tracer that never fails gains a table and nothing else; so
each run is that of a fresh machine. -/
namespace ByteTape

/-- What the machine keeps from run to run cannot disturb a run. -/
structure Machine.Ready (m : Machine) : Prop where
  remembers : m.Remembers
  quiet : m.Quiet

namespace Execution
variable {σ τ : Type}

def through (f : σ → τ) (x : Execution σ) : Execution τ :=
  { x.toMachine with input := x.input, output := f x.output }

section Through
variable {f : σ → τ} [ByteOutput σ] [ByteOutput τ]

private theorem perform_through (hf : ByteOutput.Honest f) (i : Instruction) (x : Execution σ) :
    (x.through f).perform i = ((x.perform i).1.through f, (x.perform i).2) :=
  perform_supervised id id id (f := id) (fun _ _ => rfl) hf (.inr rfl) x

omit [ByteOutput σ] [ByteOutput τ] in
theorem framed_through : Framed (through f) :=
  ⟨fun _ => rfl, fun _ => rfl, fun _ _ _ => rfl, fun _ => rfl, fun _ => rfl⟩

private theorem carries_through (hf : ByteOutput.Honest f) :
    Carries perform perform (fun _ => True) (through f) where
  steady := ⟨fun _ _ _ => trivial, fun _ _ _ _ => trivial⟩
  signal _ w := by cases w <;> rfl
  tick x _ := by
    apply framed_through.tickBy
    intro i _
    refine ⟨rfl, fun _ => ⟨perform_through hf i x, ?_⟩⟩
    intro y _
    exact framed_through.record rfl (fun _ => rfl) i x.snapshot

end Through

private theorem crossed_of_alike [ByteOutput σ] {R : σ → σ → Prop} (hR : ByteOutput.Alike R)
    (x : Execution σ) {o : σ} (h : R x.output o) (ws : List (Option Bool)) :
    (({ x with output := o } : Execution σ).trail perform ws).filterMap crossed? =
      (x.trail perform ws).filterMap crossed? := by
  let _ := hR.classes
  have hclass : ({ x with output := o } : Execution σ).through (Quot.mk R) =
      x.through (Quot.mk R) := by
    simp only [through, Quot.sound h]
  have hseen (y : Execution σ) : ((y.through (Quot.mk R)).trail perform ws).filterMap crossed? =
      (y.trail perform ws).filterMap crossed? := by
    rw [(carries_through hR.honest_mk).trail trivial, List.filterMap_map]
    rfl
  rw [← hseen, hclass, hseen]

variable [ByteOutput σ] {x y : Execution σ}

def bare (x : Execution σ) : Execution σ := { x with memo := .empty 0, tracer := none }

private theorem perform_bare {i : Instruction} (hr : x.Remembers)
    (hi : x.program.get? x.ip = some i.symbol) :
    x.bare.performScanning i = ((x.perform i).1.bare, (x.perform i).2) := by
  have h := performScanning_withMemo (x := x.untraced) ⟨hr.sound, hr.room⟩ hi (.empty 0)
  rw [perform_untraced] at h
  exact h

omit [ByteOutput σ] in
private theorem framed_bare : Framed (bare (σ := σ)) :=
  ⟨fun _ => rfl, fun _ => rfl, fun _ _ _ => rfl, fun _ => rfl, fun _ => rfl⟩

private theorem rowBy?_bare (hr : x.Remembers) : x.bare.rowBy? performScanning = x.row? := by
  apply framed_bare.rowBy?
  intro i hi
  exact ⟨rfl, fun _ => perform_bare hr hi⟩

private theorem steady_ready : Steady (σ := σ) perform (·.Ready) where
  signal x w h :=
    ⟨Machine.lasting_remembers.signal h.remembers w, steady_quiet.signal x w h.quiet⟩
  tick x y h ht :=
    ⟨(steady_of_lasting Machine.lasting_remembers).tick x y h.remembers ht,
      steady_quiet.tick x y h.quiet ht⟩

/-- A run goes on as it would on a machine that remembers nothing and writes no table. -/
theorem carries_bare : Carries (σ := σ) perform performScanning (·.Ready) bare where
  steady := steady_ready
  signal _ w := by cases w <;> rfl
  tick x h := by
    apply framed_bare.tickBy
    intro i hi
    refine ⟨rfl, fun _ => ⟨perform_bare h.remembers hi, ?_⟩⟩
    intro y hp
    obtain ⟨t, hr, _⟩ := exists_record_of_perform h.quiet hp
    rw [hr]
    rfl

private theorem conclude_bare (h : x.Quiet) (result : Except Fault Unit) :
    x.bare.conclude result = ((x.conclude result).1.bare, (x.conclude result).2) := by
  have hforget := conclude_map (f := fun z : Execution σ => { z with memo := .empty 0 })
    (fun _ => rfl) (fun _ => rfl) (fun _ => rfl) (fun _ _ => rfl) (fun _ _ => rfl) x.untraced result
  rw [conclude_untraced h] at hforget
  exact hforget

private theorem rows_trail (h : x.Ready) (ws : List (Option Bool)) :
    (x.trail perform ws).filterMap row? =
      (x.bare.trail performScanning ws).filterMap (rowBy? performScanning) := by
  rw [carries_bare.trail h, List.filterMap_map]
  apply List.filterMap_congr
  intro z hz
  exact (rowBy?_bare (steady_ready.trail h ws z hz).remembers).symm

private theorem crossed_trail (h : x.Ready) (ws : List (Option Bool)) :
    (x.trail perform ws).filterMap crossed? =
      (x.bare.trail performScanning ws).filterMap crossed? := by
  rw [carries_bare.trail h, List.filterMap_map]
  rfl

end Execution

private theorem JumpMemo.Records.scans_of_known {p : Program} {m m' : JumpMemo}
    {crossed found again found' : List (Nat × Nat)} (h : m.Records p crossed found)
    (h' : m'.Records p (crossed ++ again) (found ++ found')) (hk : ∀ q ∈ again, q ∈ crossed) :
    m'.scans = m.scans := by
  have hnil : found' = [] := by
    rw [List.eq_nil_iff_forall_not_mem]
    intro q hq
    have hmem := (h'.mem_found q).mp (List.mem_append_right _ hq)
    have hold : q ∈ found := by
      apply (h.mem_found q).mpr
      rcases List.mem_append.mp hmem with hmem | hmem
      · exact hmem
      · exact hk q hmem
    exact List.disjoint_of_nodup_append h'.nodup hold hq
  rw [h'.scans, h.scans, hnil, List.append_nil]

namespace Machine
open Execution

def bare (m : Machine) : Machine := { m with memo := .empty 0, tracer := none }

private theorem ready_start {σ : Type} {m : Machine} (h : m.Ready) (input : Source) (output : σ) :
    (m.start input output).Ready :=
  ⟨⟨h.remembers.sound, h.remembers.room⟩, h.quiet⟩

section Bare
variable {σ : Type} [ByteOutput σ] {m m' : Machine}

private theorem runBy_bare (h : m.Ready) (ws : List (Option Bool)) (input : Source) (output : σ) :
    (m.runBy perform ws input output).map Execution.bare =
      m.bare.rewind.runBy performScanning ws input output := by
  have hstart := ready_start h input output
  have hd := carries_bare.drive hstart ws
  have hquiet := (gained_drive hstart.quiet ws).quiet
  have hs : m.bare.rewind.start input output = (m.start input output).bare := rfl
  unfold runBy
  rw [hs, hd]
  cases he : (m.start input output).drive perform ws with
  | running x => rfl
  | ended x result =>
    rw [he] at hquiet
    have hx : x.Quiet := hquiet
    simp only [Progress.map, conclude_bare hx]

/-- Machines that differ in no more than memo, tracer and what a run resets jump across the
same pairs and write the same rows. -/
private theorem trail_of_bare (hb : m.bare.rewind = m'.bare.rewind) (h : m.Ready) (h' : m'.Ready)
    (ws : List (Option Bool)) (input : Source) (output : σ) :
    ((m.start input output).trail perform ws).filterMap row? =
        ((m'.start input output).trail perform ws).filterMap row? ∧
      ((m.start input output).trail perform ws).filterMap crossed? =
        ((m'.start input output).trail perform ws).filterMap crossed? := by
  have hs : (m.start input output).bare = (m'.start input output).bare :=
    congrArg (Machine.start · input output) hb
  have hstart := ready_start h input output
  have hstart' := ready_start h' input output
  constructor
  · rw [rows_trail hstart, rows_trail hstart', hs]
  · rw [crossed_trail hstart, crossed_trail hstart', hs]

private theorem scans_of_repeated {p : Program} {crossed found : List (Nat × Nat)}
    (hrec : m.Records p crossed found) (hq : m.Quiet) {ws : List (Option Bool)} {input : Source}
    {output output' : σ} {R : σ → σ → Prop} (hR : ByteOutput.Alike R) (ho : R output output')
    {x : Execution σ} {result : Except Fault Unit}
    (hx : m.runBy perform ws input output = .ended x result) :
    ({ x.toMachine with cancel := m.cancel }.runBy perform ws input output').state.scans =
      x.scans := by
  have hafter := records_runBy hrec ws input output
  have hquiet := (gained_runBy hq ws input output).quiet
  have hconfig := (lasting_config (σ := σ) m.config).runBy (m := m) rfl ws input output
  rw [hx] at hafter hquiet hconfig
  let again : Machine := { x.toMachine with cancel := m.cancel }
  have hagain : again.Records p _ _ := ⟨hafter.program, hafter.memo⟩
  have hb : again.bare.rewind = m.bare.rewind := by
    have hprogram : x.program = m.program := hafter.program.trans hrec.program.symm
    have hconfig : x.config = m.config := hconfig
    simp only [again, bare, rewind, hprogram, hconfig]
  have hsame := (trail_of_bare hb ⟨hagain.remembers, hquiet⟩ ⟨hrec.remembers, hq⟩ ws input
    output').2
  have halike := crossed_of_alike hR (m.start input output) (o := output') ho ws
  have hlast := records_runBy hagain ws input output'
  apply hagain.memo.scans_of_known hlast.memo
  intro q hq
  rw [hsame] at hq
  exact List.mem_append_right _ (halike ▸ hq)

end Bare

/-- A run after any history is that of a fresh machine with the same program, configuration
and value of the cancel flag, as long as no tracer fails. Its result is the same, and so is
all that it leaves but the memo and the table; each table gains the same rows, under a
header if it had none. Repeated with an output that behaves alike, it needs no scan. -/
theorem rerun_eq_fresh {σ τ : Type} [ByteOutput σ] [ByteOutput τ] (p : Program) (c : Config)
    (es : List (Event σ)) (t : Option Tracer) (ws : List (Option Bool)) (input : Source)
    (output : τ) (hquiet : ((Machine.new p c).after es).Quiet)
    (ht : ∀ u ∈ t, u.sink.Sturdy) :
    let m := (Machine.new p c).after es
    let fresh : Machine := { Machine.new p c with cancel := m.cancel, tracer := t }
    let run := m.runBy perform ws input output
    let run' := fresh.runBy perform ws input output
    let rows := ((m.start input output).trail perform ws).filterMap row?
    run.map Execution.bare = run'.map Execution.bare ∧
    rows = ((fresh.start input output).trail perform ws).filterMap row? ∧
    Tracer.Gained rows m.tracer run.state.tracer ∧
    Tracer.Gained rows t run'.state.tracer ∧
    ∀ (R : τ → τ → Prop) (output' : τ) (x : Execution τ) (result : Except Fault Unit),
      ByteOutput.Alike R → R output output' → run = .ended x result →
      ({ x.toMachine with cancel := m.cancel }.runBy perform ws input output').state.scans =
        x.scans := by
  intro m fresh run run' rows
  have hrec : m.Records p _ _ :=
    records_after (m := Machine.new p c) ⟨rfl, JumpMemo.records_empty p⟩ es
  have hconfig : m.config = c := (lasting_config (σ := σ) c).after (m := Machine.new p c) rfl es
  have hnew := remembers_new p c
  have hready : m.Ready := ⟨hrec.remembers, hquiet⟩
  have hfresh : fresh.Ready := ⟨⟨hnew.sound, hnew.room⟩, ht⟩
  have hb : m.bare.rewind = fresh.bare.rewind := by
    simp only [bare, rewind, hrec.program, hconfig]
    rfl
  have hrows : rows = _ := (trail_of_bare hb hready hfresh ws input output).1
  refine ⟨?_, hrows, gained_runBy hquiet ws input output, ?_, ?_⟩
  · rw [runBy_bare hready, hb, runBy_bare hfresh]
  · rw [hrows]
    exact gained_runBy hfresh.quiet ws input output
  · intro R output' x result hR ho hx
    exact scans_of_repeated hrec hquiet hR ho hx

/-- A first run is refused its output after one jump, and the next one has a tracer. -/
theorem rerun_after_refusal :
    ∃ m x, (Machine.new (.ofList ['[', ']', '+', '[', '.', '-', ']']) {}).after
        [.run (List.replicate 4 none) (.ofBytes []) Sink.full, .flag false,
          .tracer (.ofSink .unlimited)] = m ∧
      m.scans = 1 ∧ m.cancel = some false ∧ m.tracer = some (.ofSink .unlimited) ∧
      m.runBy perform (List.replicate 7 none) (.ofBytes []) Sink.unlimited =
        .ended x (.ok ()) ∧ x.output.stored = #[1] ∧
      (Progress.ended x (.ok ())).map Execution.bare =
        ({ Machine.new (.ofList ['[', ']', '+', '[', '.', '-', ']']) {} with
          cancel := m.cancel, tracer := none }.runBy perform (List.replicate 7 none)
            (.ofBytes []) Sink.unlimited).map Execution.bare ∧
      ({ x.toMachine with cancel := m.cancel }.runBy perform (List.replicate 7 none)
        (.ofBytes []) Sink.unlimited).state.scans = x.scans := by
  have h := rerun_eq_fresh (.ofList ['[', ']', '+', '[', '.', '-', ']']) {}
    [.run (List.replicate 4 none) (.ofBytes []) Sink.full, .flag false,
      .tracer (.ofSink .unlimited)] none (List.replicate 7 none) (.ofBytes []) Sink.unlimited
    (by rintro t ⟨⟩; exact ⟨rfl, rfl⟩) (by simp)
  exact ⟨_, _, rfl, rfl, rfl, rfl, rfl, rfl, h.1,
    h.2.2.2.2 Eq Sink.unlimited _ (.ok ()) ByteOutput.alike_eq rfl rfl⟩

end Machine
end ByteTape
