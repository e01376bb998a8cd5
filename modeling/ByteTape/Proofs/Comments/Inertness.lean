import ByteTape.Proofs.Comments.LockStep
import ByteTape.Proofs.Machine.Jumps

/-! Whole runs with and without comments. Between two instructions a run may pass any number of
comments; what is stored in its cancel flag meanwhile is seen at the next instruction only, as
if it had been stored just before that. -/
namespace ByteTape
namespace Execution
variable {σ : Type} {x x' : Execution σ}

structure Coupled (x x' : Execution σ) : Prop extends Stripped x x' where
  remembers : x.Remembers
  remembers' : x'.Remembers

private theorem signal_signal (x : Execution σ) (held w : Option Bool) :
    (x.signal held).signal w = x.signal (w <|> held) := by
  cases w with
  | none => rfl
  | some value =>
    cases held with
    | none => rfl
    | some value' => simp [signal, Function.comp_def]

private theorem isComment_signal (x : Execution σ) (w : Option Bool) :
    (x.signal w).program.isComment (x.signal w).ip = x.program.isComment x.ip := by
  cases w <;> rfl

private theorem Coupled.pass (h : x.Coupled x') (hc : x.program.isComment x.ip = true) :
    Coupled { x with ip := x.ip + 1 } x' where
  toStripped := h.toStripped.pass hc
  remembers := ⟨h.remembers.sound, h.remembers.room⟩
  remembers' := h.remembers'

variable [ByteOutput σ]

private theorem Coupled.signal (h : x.Coupled x') (w : Option Bool) :
    (x.signal w).Coupled (x'.signal w) where
  toStripped := h.toStripped.signal w
  remembers := Machine.lasting_remembers.signal h.remembers w
  remembers' := Machine.lasting_remembers.signal h.remembers' w

/-- What is stored before a comment may as well be stored after it. -/
private theorem tick_signal_of_comment (hc : x.program.isComment x.ip = true) (w : Option Bool) :
    (x.signal w).tick = .running (({ x with ip := x.ip + 1 } : Execution σ).signal w) := by
  rw [tick_of_comment ((x.isComment_signal w).trans hc)]
  cases w <;> rfl

/-- One tick of both runs from an instruction or from the end of the program. -/
private theorem Coupled.tick_cases (h : x.Coupled x') (hc : x.program.isComment x.ip = false) :
    (∃ y y', x.tick = .running y ∧ x'.tick = .running y' ∧ y.Coupled y') ∨
    (∃ y y' result, x.tick = .ended y result ∧
      x'.tick = .ended y' (result.mapError (·.renumber y.program.rank)) ∧ y.Stripped y') := by
  have hstep := lockStep_tick h.toStripped h.remembers h.remembers' hc
  have hlast := remembers_tick h.remembers
  have hlast' := remembers_tick h.remembers'
  generalize hx : x.tick = r at hstep hlast
  generalize hx' : x'.tick = r' at hstep hlast'
  cases hstep with
  | running hy => exact .inl ⟨_, _, rfl, rfl, hy, hlast, hlast'⟩
  | ended hy => exact .inr ⟨_, _, _, rfl, rfl, hy⟩

/-- The stores of a schedule as the run without comments sees them: what is stored at comments
is held until the next tick that is not at a comment, unless another value comes after it. -/
def condense : Option Bool → List (Option Bool) → Execution σ → List (Option Bool)
  | _, [], _ => []
  | held, w :: ws, x =>
    match (x.signal w).tick with
    | .running y =>
      if x.program.isComment x.ip then condense (w <|> held) ws y
      else (w <|> held) :: condense none ws y
    | .ended _ _ => [w <|> held]

private theorem condense_of_comment (hc : x.program.isComment x.ip = true) (held w : Option Bool)
    (ws : List (Option Bool)) : (x.signal held).condense held (w :: ws) =
      (({ x with ip := x.ip + 1 } : Execution σ).signal (w <|> held)).condense (w <|> held) ws := by
  rw [condense, signal_signal, tick_signal_of_comment hc]
  simp only [(x.isComment_signal held).trans hc, if_true]

private theorem condense_of_running {y : Execution σ} (hc : x.program.isComment x.ip = false)
    {held w : Option Bool} (ht : (x.signal (w <|> held)).tick = .running y)
    (ws : List (Option Bool)) :
    (x.signal held).condense held (w :: ws) = (w <|> held) :: y.condense none ws := by
  rw [condense, signal_signal, ht]
  simp [(x.isComment_signal held).trans hc]

private theorem condense_of_ended {y : Execution σ} {held w : Option Bool}
    {result : Except Fault Unit}
    (ht : (x.signal (w <|> held)).tick = .ended y result) (ws : List (Option Bool)) :
    (x.signal held).condense held (w :: ws) = [w <|> held] := by
  rw [condense, signal_signal, ht]

/-- The run and the run without comments, with `held` stored while the last comments were
passed, go in lock step. -/
theorem lockStep_drive (h : x.Coupled x') (held : Option Bool) (ws : List (Option Bool)) :
    (∃ held', LockStep held' ((x.signal held).drive perform ws)
      (x'.drive perform ((x.signal held).condense held ws))) ∧
    List.Forall₂ Stripped
      (((x.signal held).trail perform ws).filter fun z => !z.program.isComment z.ip)
      (x'.trail perform ((x.signal held).condense held ws)) := by
  induction ws generalizing x x' held with
  | nil => exact ⟨⟨held, .running h.toStripped⟩, .nil⟩
  | cons w ws ih =>
    have hw := h.signal (w <|> held)
    simp only [drive, trail, signal_signal, tickBy_perform]
    cases hc : x.program.isComment x.ip with
    | true =>
      have hskip := (x.isComment_signal (w <|> held)).trans hc
      rw [condense_of_comment hc]
      simp only [tick_signal_of_comment hc, List.filter_cons, hskip, Bool.not_true,
        Bool.false_eq_true, if_false]
      exact ih (h.pass hc) (w <|> held)
    | false =>
      have hkeep := (x.isComment_signal (w <|> held)).trans hc
      simp only [List.filter_cons, hkeep, Bool.not_false, if_true]
      rcases hw.tick_cases hkeep with ⟨y, y', ht, ht', hy⟩ | ⟨y, y', result, ht, ht', hy⟩
      · obtain ⟨hdrive, htrail⟩ := ih hy none
        rw [condense_of_running hc ht]
        simp only [drive, trail, tickBy_perform, ht, ht']
        exact ⟨hdrive, .cons hw.toStripped htrail⟩
      · rw [condense_of_ended ht]
        simp only [drive, trail, tickBy_perform, ht, ht', List.filter_nil]
        exact ⟨⟨none, .ended hy⟩, .cons hw.toStripped .nil⟩

/-- No more comments than the program has come between two ticks of the run without. -/
private theorem length_condense {y : Execution σ} (held : Option Bool) {ws : List (Option Bool)}
    (hrun : (x.signal held).drive perform ws = .running y) :
    ws.length ≤ ((x.signal held).condense held ws).length * (x.program.size + 1) +
      (x.program.size - x.ip) := by
  induction ws generalizing x held with
  | nil => simp
  | cons w ws ih =>
    simp only [drive, signal_signal, tickBy_perform] at hrun
    cases hc : x.program.isComment x.ip with
    | true =>
      obtain ⟨c, hchar, _⟩ := Program.isComment_iff.mp hc
      have hip := Program.lt_size_of_get? hchar
      rw [tick_signal_of_comment hc] at hrun
      have hrest := ih (x := { x with ip := x.ip + 1 }) (w <|> held) hrun
      rw [condense_of_comment hc, List.length_cons]
      simp only at hrest
      omega
    | false =>
      cases ht : (x.signal (w <|> held)).tick with
      | ended z result =>
        rw [ht] at hrun
        cases hrun
      | running z =>
        rw [ht] at hrun
        have hprogram := (Machine.lasting_program (σ := σ) x.program).tick
          (x.signal (w <|> held)) (by cases (w <|> held) <;> rfl)
        rw [ht] at hprogram
        have hrest := ih (x := z) none hrun
        rw [condense_of_running hc ht, List.length_cons, List.length_cons, Nat.succ_mul]
        have hz : z.program = x.program := hprogram
        have hnone : z.signal none = z := rfl
        rw [hz, hnone] at hrest
        omega

/-- Some schedule of the run with comments, with no other stores, comes to the schedule `ws'` of
the run without. -/
def Covers (x x' : Execution σ) (ws' : List (Option Bool)) : Prop :=
  ∃ ws, (∀ w ∈ ws, w = none ∨ w ∈ ws') ∧
    x'.drive perform ws' = x'.drive perform (x.condense none ws)

private theorem covers_cons (h : x.Coupled x') (hc : x.program.isComment x.ip = false)
    {w' : Option Bool} {ws' : List (Option Bool)}
    (hrest : ∀ y y' : Execution σ, y.Coupled y' → Covers y y' ws') :
    Covers x x' (w' :: ws') := by
  have hstore : (w' <|> none) = w' := by cases w' <;> rfl
  rcases (h.signal w').tick_cases ((x.isComment_signal w').trans hc) with
    ⟨y, y', ht, ht', hy⟩ | ⟨y, y', result, ht, ht', _⟩
  · obtain ⟨ws, hmem, hdrive⟩ := hrest y y' hy
    have hcondense : x.condense none (w' :: ws) = w' :: y.condense none ws := by
      rw [← hstore] at ht
      have hcons := condense_of_running hc ht ws
      rwa [hstore] at hcons
    refine ⟨w' :: ws, ?_, ?_⟩
    · intro w hw
      rcases List.mem_cons.mp hw with rfl | hw
      · exact .inr List.mem_cons_self
      · exact (hmem w hw).imp_right (List.mem_cons_of_mem _)
    · rw [hcondense]
      simp only [drive, tickBy_perform, ht']
      exact hdrive
  · have hcondense : x.condense none [w'] = [w'] := by
      rw [← hstore] at ht
      have hcons := condense_of_ended ht []
      rwa [hstore] at hcons
    refine ⟨[w'], by simp, ?_⟩
    rw [hcondense]
    simp only [drive, tickBy_perform, ht']

/-- Each schedule of the run without comments is one that a schedule of the run with comments
comes to. -/
private theorem covers (h : x.Coupled x') (ws' : List (Option Bool)) : Covers x x' ws' := by
  induction ws' generalizing x x' with
  | nil => exact ⟨[], by simp, rfl⟩
  | cons w' ws' ih =>
    -- the comments before the next tick of the other run are passed without a store
    obtain ⟨d, hnext, hcomments⟩ := x.program.exists_next x.ip
    induction d generalizing x with
    | zero => exact covers_cons h hnext fun _ _ => ih
    | succ d ihd =>
      have hc := hcomments x.ip le_rfl (by omega)
      obtain ⟨ws, hmem, hdrive⟩ := ihd (h.pass hc) (by rw [← hnext]; congr 1; simp only; omega)
        (fun k hk hlt => hcomments k (by simp only at hk; omega) (by simp only at hlt; omega))
      have hcondense : x.condense none (none :: ws) =
          ({ x with ip := x.ip + 1 } : Execution σ).condense none ws :=
        condense_of_comment hc none none ws
      exact ⟨none :: ws, by simpa using hmem, by rw [hcondense, hdrive]⟩

private theorem condense_replicate (n : Nat) (x : Execution σ) :
    ∃ k, x.condense none (List.replicate n none) = List.replicate k none := by
  induction n generalizing x with
  | zero => exact ⟨0, rfl⟩
  | succ n ih =>
    simp only [List.replicate_succ, condense, Execution.signal]
    cases x.tick with
    | ended y result => exact ⟨1, rfl⟩
    | running y =>
      obtain ⟨k, hk⟩ := ih y
      by_cases hc : x.program.isComment x.ip = true
      · exact ⟨k, by simpa [hc] using hk⟩
      · exact ⟨k + 1, by simp [hc, hk, List.replicate_succ]⟩

private theorem paired_conclude (h : x.Stripped x') (result : Except Fault Unit) :
    Paired x.program.rank (x.conclude result)
      (x'.conclude (result.mapError (·.renumber x.program.rank))) := by
  have huntraced : (x.conclude result).1.tracer = none := by
    have ht := h.untraced
    obtain ⟨⟨_, _, _, _, _, _, _, _, tracer⟩, input, output⟩ := x
    obtain rfl : tracer = none := ht
    rcases result with (e | e) | _ <;> rfl
  obtain ⟨memo, rfl, hmemo⟩ := h.exists_eq
  obtain ⟨o, t, hstate⟩ := x.conclude_eq result
  rw [conclude_relocated _ _ h.untraced]
  refine ⟨?_, rfl⟩
  show Stripped _ ((x.conclude result).1.relocated _ _ _)
  rw [hstate] at huntraced ⊢
  exact ⟨rfl, hmemo, huntraced⟩

end Execution

namespace Machine
open Execution
variable {σ : Type} [ByteOutput σ]

private theorem run_eq_some_iff_runBy {n : Nat} {m : Machine} {input : Source} {output : σ}
    {x : Execution σ} {result : Except Fault Unit} : m.run n input output = some (x, result) ↔
      m.runBy perform (List.replicate n none) input output = .ended x result := by
  rw [run_eq_runBy]
  cases m.runBy perform (List.replicate n none) input output with
  | running y => simp
  | ended y r => simp

omit [ByteOutput σ] in
private theorem coupled_start (p : Program) (c : Config) (flag : Option Bool) (input : Source)
    (output : σ) :
    ({ Machine.new p c with cancel := flag, tracer := none }.start input output).Coupled
      ({ Machine.new p.stripped c with cancel := flag, tracer := none }.start input output) where
  state := rfl
  memo := ⟨rfl, fun i a _ => by simp [start, rewind, new]⟩
  untraced := rfl
  remembers := ⟨(remembers_new p c).sound, (remembers_new p c).room⟩
  remembers' := ⟨(remembers_new p.stripped c).sound, (remembers_new p.stripped c).room⟩

private theorem lockStep_runBy {m m' : Machine} {input : Source} {output : σ}
    (h : (m.start input output).Coupled (m'.start input output)) (ws : List (Option Bool)) :
    ∃ held, LockStep held (m.runBy perform ws input output)
      (m'.runBy perform ((m.start input output).condense none ws) input output) := by
  obtain ⟨held, hstep⟩ := (lockStep_drive h none ws).1
  refine ⟨held, ?_⟩
  have hnone : (m.start input output).signal none = m.start input output := rfl
  rw [hnone] at hstep
  unfold runBy
  generalize (m.start input output).drive perform ws = r at hstep
  generalize (m'.start input output).drive perform _ = r' at hstep
  cases hstep with
  | running hx => exact .running hx
  | @ended x x' result hx =>
    obtain ⟨hstate, hresult⟩ := paired_conclude hx result
    have hprogram : (x.conclude result).1.program = x.program := by
      obtain ⟨o, t, he⟩ := x.conclude_eq result
      rw [he]
    have hended : LockStep held (.ended (x.conclude result).1 (x.conclude result).2) _ :=
      .ended hstate
    rwa [hprogram, ← hresult] at hended

/-- Comments are inert. Without a tracer a run and the run of the program without its comments go
in lock step, whatever the configuration, the streams and the stores in the cancel flag: one
ends just if the other does, in the same state and with the same result, save that places count
the instructions before them. -/
theorem comments_inert (p : Program) (c : Config) (flag : Option Bool) (input : Source)
    (output : σ) :
    let m : Machine := { Machine.new p c with cancel := flag, tracer := none }
    let m' : Machine := { Machine.new p.stripped c with cancel := flag, tracer := none }
    let start := m.start input output
    (∀ ws, let ws' := start.condense none ws
      (∃ held, LockStep held (m.runBy perform ws input output)
        (m'.runBy perform ws' input output)) ∧
      List.Forall₂ Stripped ((start.trail perform ws).filter fun z => !z.program.isComment z.ip)
        ((m'.start input output).trail perform ws') ∧
      ∀ x, m.runBy perform ws input output = .running x →
        ws.length ≤ ws'.length * (p.size + 1) + p.size) ∧
    (∀ ws', ∃ ws, m'.runBy perform ws' input output =
      m'.runBy perform (start.condense none ws) input output) ∧
    (∀ n x result, m.run n input output = some (x, result) →
      ∃ n' x', m'.run n' input output = some (x', result.mapError (·.renumber p.rank)) ∧
        x.Stripped x') ∧
    ∀ n' x' result', m'.run n' input output = some (x', result') →
      ∃ n x result, m.run n input output = some (x, result) ∧
        result' = result.mapError (·.renumber p.rank) ∧ x.Stripped x' := by
  intro m m' start
  have hstart : start.Coupled (m'.start input output) := coupled_start p c flag input output
  have hprogram (ws : List (Option Bool)) :
      (m.runBy perform ws input output).state.program = p :=
    (lasting_program (σ := σ) p).runBy (m := m) rfl ws input output
  have hcovers (ws' : List (Option Bool)) : ∃ ws, (∀ w ∈ ws, w = none ∨ w ∈ ws') ∧
      m'.runBy perform ws' input output =
        m'.runBy perform (start.condense none ws) input output := by
    obtain ⟨ws, hmem, hdrive⟩ := covers hstart ws'
    exact ⟨ws, hmem, by simp only [runBy, hdrive]⟩
  refine ⟨?_, ?_, ?_, ?_⟩
  · intro ws ws'
    refine ⟨lockStep_runBy hstart ws, (lockStep_drive hstart none ws).2, ?_⟩
    intro x hx
    have hdrive : start.drive perform ws = .running x := by
      unfold runBy at hx
      split at hx
      · rename_i y hy
        obtain rfl := Progress.running.inj hx
        exact hy
      · cases hx
    exact length_condense none hdrive
  · intro ws'
    obtain ⟨ws, _, hws⟩ := hcovers ws'
    exact ⟨ws, hws⟩
  · intro n x result hrun
    have hended := run_eq_some_iff_runBy.mp hrun
    have hx := hprogram (List.replicate n none)
    obtain ⟨held, hstep⟩ := lockStep_runBy hstart (List.replicate n none)
    obtain ⟨k, hk⟩ := condense_replicate n start
    rw [hended] at hstep hx
    generalize hrun' : m'.runBy perform _ input output = r' at hstep
    rw [hk] at hrun'
    cases hstep with
    | @ended _ x' _ hstripped =>
      have hx : x.program = p := hx
      rw [hx] at hrun'
      exact ⟨k, x', run_eq_some_iff_runBy.mpr hrun', hstripped⟩
  · intro n' x' result' hrun
    have hended := run_eq_some_iff_runBy.mp hrun
    obtain ⟨ws, hmem, hws⟩ := hcovers (List.replicate n' none)
    have hnone : ws = List.replicate ws.length none := by
      apply List.eq_replicate_of_mem
      intro w hw
      rcases hmem w hw with hw | hw
      · exact hw
      · exact List.eq_of_mem_replicate hw
    obtain ⟨held, hstep⟩ := lockStep_runBy hstart ws
    have hx := hprogram ws
    rw [← hws, hended] at hstep
    generalize hrun' : m.runBy perform ws input output = r at hstep hx
    cases hstep with
    | @ended x _ result hstripped =>
      have hx : x.program = p := hx
      rw [hnone] at hrun'
      exact ⟨ws.length, x, result, run_eq_some_iff_runBy.mpr hrun', by rw [hx], hstripped⟩

/-- A loop with a comment in it is skipped, and the move behind it fails, at place 4 of the
program and at place 2 of its instructions. -/
theorem underflow_renumbered :
    ∃ (m m' : Machine) (x x' : Execution Sink) (n' : Nat),
      m = Machine.new (.ofList ['#', '[', ' ', ']', '<', '#']) {} ∧
      m' = Machine.new (.ofList ['[', ']', '<']) {} ∧
      m.run 3 (.ofBytes []) Sink.unlimited = some (x, .error (.error (.pointerUnderflow 4))) ∧
      m'.run n' (.ofBytes []) Sink.unlimited = some (x', .error (.error (.pointerUnderflow 2))) ∧
      x.Stripped x' ∧ x.scans = 1 := by
  have h := comments_inert (.ofList ['#', '[', ' ', ']', '<', '#']) {} none (.ofBytes [])
    Sink.unlimited
  have hrun : (Machine.new (.ofList ['#', '[', ' ', ']', '<', '#']) {}).run 3
      (.ofBytes []) Sink.unlimited = some (_, .error (.error (.pointerUnderflow 4))) := rfl
  obtain ⟨n', x', hrun', hstripped⟩ := h.2.2.1 3 _ _ hrun
  exact ⟨_, _, _, x', n', rfl, rfl, hrun, hrun', hstripped, rfl⟩

end Machine
end ByteTape
