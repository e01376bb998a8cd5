import ByteTape.Proofs.Machine.FullTable
import ByteTape.Proofs.Machine.Narration
import Mathlib.Data.List.Induction

/-! Runs under a tracer with limited room. Up to the first row that does not fit they are the runs
under a tracer with room for all, and there they end. -/
namespace ByteTape

private theorem Trace.length_table_le (headed : Bool) (rows rows' : List Row) :
    (table headed rows).length ≤ (table headed (rows ++ rows')).length := by
  rw [table_append, List.length_append]
  exact Nat.le_add_right _ _

namespace Execution
variable {σ : Type} [ByteOutput σ] {x y : Execution σ}

/-- The tracer has written these rows on the device `s`, which has had room for all of them. -/
structure Holds (s : Sink) (c : Nat) (rows : List Trace.Row) (x : Execution σ) : Prop where
  tracer : x.tracer = some (.below s rows)
  fits : (Trace.table false rows).length ≤ c

def RowFits (c : Nat) (rows : List Trace.Row) (x : Execution σ) : Prop :=
  ∀ s, x.stride? = some s → (Trace.table false (rows ++ [s.row])).length ≤ c

section Holds
variable {s : Sink} {c : Nat} {rs : List Trace.Row} {ws : List (Option Bool)}

omit [ByteOutput σ] in
private theorem Holds.signal (h : x.Holds s c rs) (w : Option Bool) :
    (x.signal w).Holds s c rs := by
  cases w <;> exact ⟨h.tracer, h.fits⟩

private theorem Holds.tick (h : x.Holds s c rs) (hs : s.room = some c) (hfits : x.RowFits c rs) :
    x.tick.state.Holds s c (rs ++ rows [x]) := by
  cases hx : x.stride? with
  | none =>
    have hrows : rows [x] = [] := by simp [rows, hx]
    rw [hrows, List.append_nil]
    exact ⟨(tracer_tick_of_no_stride hx).trans h.tracer, h.fits⟩
  | some st =>
    have hrow := Tracer.row_below_of_fits hs (hfits st hx)
    rw [tick_of_row_ok hx h.tracer hrow, rows_singleton_of_some hx]
    exact ⟨rfl, hfits st hx⟩

/-- Of a row that does not fit a part is added, and the run ends. -/
private theorem Holds.tick_of_not_fits (h : x.Holds s c rs) (hs : s.room = some c) {st : Stride σ}
    (hx : x.stride? = some st) (hlong : c < (Trace.table false (rs ++ [st.row])).length) :
    ∃ t, t.sink = s.holding ((Trace.table false (rs ++ [st.row])).take c) ∧
      x.tick = .ended { st.after with tracer := some t }
        (.error (.error (.stream x.ip s.refusal))) := by
  obtain ⟨headed, hrow⟩ := Tracer.row_below_of_not_fits hs h.fits hlong
  exact ⟨_, rfl, tick_of_row_error hx h.tracer hrow⟩

private theorem Holds.rowFits_of_running (h : x.Holds s c rs) (hs : s.room = some c)
    (ht : x.tick = .running y) : x.RowFits c rs := by
  intro st hx
  by_contra hlong
  obtain ⟨_, _, he⟩ := h.tick_of_not_fits hs hx (Nat.not_le.mp hlong)
  rw [he] at ht
  cases ht

/-- At each moment the rows of the instructions before are written. -/
theorem historic_holds (hs : s.room = some c) : Historic (σ := σ) fun past x =>
    x.Holds s c (rows past) where
  signal _ _ w h := h.signal w
  tick past x y h ht := by
    have hy := h.tick hs (h.rowFits_of_running hs ht)
    rwa [ht, ← rows_append] at hy

private theorem Holds.tick_freed (h : x.Holds s c rs) (hs : s.room = some c)
    (hfits : x.RowFits c rs) : x.freed.tick = x.tick.map freed := by
  apply tick_freed_of_row_ok
  intro st t hx ht
  obtain rfl := Option.some.inj (h.tracer.symm.trans ht)
  exact congrArg Prod.snd (Tracer.row_below_of_fits hs (hfits st hx))

private theorem Holds.drive (h : x.Holds s c rs) (hs : s.room = some c)
    (hroom : (Trace.table false (rs ++ rows (x.trail perform ws))).length ≤ c) :
    (x.drive perform ws).state.Holds s c (rs ++ rows (x.trail perform ws)) ∧
      x.freed.drive perform ws = (x.drive perform ws).map freed ∧
      x.freed.trail perform ws = (x.trail perform ws).map freed := by
  induction ws generalizing x rs with
  | nil =>
    have hnil : rs ++ rows (x.trail perform []) = rs := List.append_nil rs
    rw [hnil]
    exact ⟨h, rfl, rfl⟩
  | cons w ws ih =>
    have hw := h.signal w
    simp only [trail, tickBy_perform] at hroom ⊢
    rw [rows_cons, ← List.append_assoc] at hroom ⊢
    have hfits : (x.signal w).RowFits c rs := by
      intro st hx
      rw [rows_singleton_of_some hx] at hroom
      exact (Trace.length_table_le false _ _).trans hroom
    have hnext := hw.tick hs hfits
    simp only [Execution.drive, tickBy_perform, signal_freed, hw.tick_freed hs hfits, List.map_cons]
    cases ht : (x.signal w).tick with
    | running y =>
      rw [ht] at hnext hroom
      obtain ⟨hholds, hdrive, htrail⟩ := ih hnext hroom
      exact ⟨hholds, hdrive, congrArg _ htrail⟩
    | ended y result =>
      rw [ht] at hnext
      exact ⟨by simpa [rows] using hnext, rfl, rfl⟩

end Holds

/-- Where a table grows too long, one of its rows is the first that does not fit. -/
private theorem exists_first_of_lt {moments : List (Execution σ)} {c : Nat}
    (h : c < (Trace.table false (rows moments)).length) : ∃ pre z post st,
      moments = pre ++ z :: post ∧ z.stride? = some st ∧
      (Trace.table false (rows pre)).length ≤ c ∧
      c < (Trace.table false (rows pre ++ [st.row])).length := by
  induction moments using List.reverseRecOn with
  | nil => exact absurd h (Nat.not_lt_zero c)
  | append_singleton moments z ih =>
    by_cases hbefore : c < (Trace.table false (rows moments)).length
    · obtain ⟨pre, z', post, st, rfl, hrest⟩ := ih hbefore
      exact ⟨pre, z', post ++ [z], st, by simp, hrest⟩
    · cases hz : z.stride? with
      | none =>
        rw [rows_append, show rows [z] = [] by simp [rows, hz], List.append_nil] at h
        exact absurd h hbefore
      | some st =>
        rw [rows_append, rows_singleton_of_some hz] at h
        exact ⟨moments, z, [], st, rfl, hz, Nat.not_lt.mp hbefore, h⟩

/-- The last flushes of a run whose table had room are those on the freed device, but for the flush
of the table, and that one decides only if nothing else has failed. -/
private theorem Holds.conclude {s : Sink} {c : Nat} {rs : List Trace.Row} (h : x.Holds s c rs)
    (own : Except RunError Unit) :
    (x.freed.conclude (own.mapError .error)).1 = (x.conclude (own.mapError .error)).1.freed ∧
    (x.conclude (own.mapError .error)).2 = match s.flushFaults.lookup s.flushes.size with
      | none => (x.freed.conclude (own.mapError .error)).2
      | some e => (x.freed.conclude (own.mapError .error)).2 *> .error (.error (.stream x.ip e)) := by
  have hflush : (x.tracer.map Tracer.flush).elim (.ok ()) Prod.snd =
      match s.flushFaults.lookup s.flushes.size with
      | none => .ok ()
      | some e => .error e := by
    rw [h.tracer]
    rfl
  have hfreed : (x.freed.tracer.map Tracer.flush).elim (.ok ()) Prod.snd = .ok () := by
    rw [show x.freed.tracer = _ from congrArg (Option.map Tracer.freed) h.tracer]
    rfl
  have houtput : x.freed.output = x.output := rfl
  rw [conclude_mapError, conclude_mapError, hflush, hfreed, houtput]
  constructor
  · simp only [flushed, freed, tracedBy, h.tracer]
    rfl
  · cases s.flushFaults.lookup s.flushes.size with
    | none => rfl
    | some e =>
      rcases own with f | _
      · rfl
      · rcases (ByteOutput.flush x.output).2 with f | _ <;> rfl

end Execution

/-- The state in which a run ends whose table is cut off after `text`: the instruction `st` has
been carried out, `k` instructions before it have been counted, and the output has been flushed. -/
structure Execution.CutAt {σ : Type} [ByteOutput σ] (p : Program) (text : List UInt8) (k : Nat)
    (st : Stride σ) (x : Execution σ) : Prop where
  stored : ∃ t, x.tracer = some t ∧ t.sink.stored.toList = text
  steps : x.steps = k
  tape : x.tape = st.after.tape
  pointer : x.pointer = st.after.pointer
  memo : x.memo = st.after.memo
  input : x.input = st.after.input
  output : x.output = (ByteOutput.flush st.after.output).1
  ip : x.ip = (st.before.target? st.instruction).getD st.before.ip
  target : ∀ j, st.before.target? st.instruction = some j → Bracket.Partner p st.before.ip j

def Machine.executed {σ : Type} [ByteOutput σ] (m : Machine) (ws : List (Option Bool))
    (input : Source) (output : σ) : List (Stride σ) :=
  ((m.start input output).trail Execution.perform ws).filterMap Execution.stride?

def Machine.tracedOn (s : Sink) (m : Machine) : Machine := { m with tracer := some (.ofSink s) }

namespace Machine
open Execution
variable {σ : Type} [ByteOutput σ] {m : Machine} {s : Sink}

/-- A run adds a row for each instruction that it executes. -/
theorem gained_executed (h : m.Quiet) (ws : List (Option Bool)) (input : Source) (output : σ) :
    Tracer.Gained ((m.executed ws input output).map Stride.row) m.tracer
      (m.runBy perform ws input output).state.tracer := by
  have hgained := gained_runBy h ws input output
  have hrows : ((m.start input output).trail perform ws).filterMap row? =
      (m.executed ws input output).map Stride.row := by
    simp only [executed, List.map_filterMap, row?_eq]
  rwa [hrows] at hgained

private theorem quiet_tracedOn (m : Machine) (s : Sink) : (m.tracedOn s.freed).Quiet := by
  rintro u ⟨⟩
  exact ⟨rfl, rfl⟩

section Ending
variable {n : Nat} {ws : List (Option Bool)} {input : Source} {output : σ} {p : Program}

omit [ByteOutput σ] in
private theorem holds_start (m : Machine) (s : Sink) (n : Nat) (input : Source) (output : σ) :
    ((m.tracedOn s).start input output).Holds s n [] :=
  ⟨rfl, Nat.zero_le n⟩

private theorem rows_prefix (m : Machine) (s : Sink) (ws : List (Option Bool)) (input : Source)
    (output : σ) : ∃ rest, rows (((m.tracedOn s.freed).start input output).trail perform ws) =
      rows (((m.tracedOn s).start input output).trail perform ws) ++ rest := by
  obtain ⟨rest, hrest⟩ := trail_prefix_freed ((m.tracedOn s).start input output) ws
  have hsplit := congrArg rows hrest
  rw [rows_append, rows_map_freed] at hsplit
  exact ⟨_, hsplit.symm⟩

/-- A table that has room for all rows changes nothing but the last flush of itself. -/
private theorem runBy_of_table_fits (hm : m.Remembers ∧ m.Inside p) (hs : s.room = some n)
    (hroom : (Trace.table false (rows
      (((m.tracedOn s.freed).start input output).trail perform ws))).length ≤ n) :
    ((m.tracedOn s.freed).start input output).drive perform ws =
      (((m.tracedOn s).start input output).drive perform ws).map freed ∧
    ∀ x r, (m.tracedOn s.freed).runBy perform ws input output = .ended x r →
      ∃ y, y.freed = x ∧ (m.tracedOn s).runBy perform ws input output =
        .ended y (match s.flushFaults.lookup s.flushes.size with
          | none => r
          | some e => r *> .error (.error (.stream p.size e))) := by
  obtain ⟨rest, hrest⟩ := rows_prefix m s ws input output
  rw [hrest] at hroom
  obtain ⟨hholds, hdrive, _⟩ := (holds_start m s n input output).drive hs
    ((Trace.length_table_le false _ rest).trans hroom)
  refine ⟨hdrive, fun x r hr => ?_⟩
  obtain ⟨u, own, hu, hx⟩ := runBy_eq_ended_iff.mp hr
  have hfree : ((m.tracedOn s).start input output).freed.drive perform ws = .ended u own := hu
  rw [hdrive] at hfree
  cases hd : ((m.tracedOn s).start input output).drive perform ws with
  | running y => rw [hd] at hfree; cases hfree
  | ended y own' =>
    rw [hd] at hfree hholds
    have hy : y.Holds s n _ := hholds
    obtain ⟨rfl, rfl⟩ := Progress.ended.inj hfree
    have hbounded := bounded_start (m := m.tracedOn s)
      ((lasting_inside (σ := σ) p).tracer m _ hm) input output
    obtain ⟨own, rfl, hip⟩ := ended_of_bounded hbounded hd
    obtain ⟨hstate, hresult⟩ := Holds.conclude hy own
    rw [hx] at hstate hresult
    refine ⟨_, hstate.symm, runBy_eq_ended_iff.mpr ⟨y, _, hd, Prod.ext rfl ?_⟩⟩
    rw [hresult]
    cases s.flushFaults.lookup s.flushes.size with
    | none => rfl
    | some e =>
      rcases own with f | _
      · have hfailed := hx.symm.trans (y.freed.conclude_error f)
        rw [(Prod.mk.inj hfailed).2]
        rfl
      · rw [hip rfl]

private theorem exists_overrun (hs : s.room = some n) (hlong : n < (Trace.table false
    (((m.tracedOn s.freed).executed ws input output).map Stride.row)).length) :
    ∃ pre z post st, ((m.tracedOn s).start input output).trail perform ws = pre ++ z :: post ∧
      z.stride? = some st ∧ (Trace.table false (rows pre)).length ≤ n ∧
      n < (Trace.table false (rows pre ++ [st.row])).length := by
  apply exists_first_of_lt
  by_contra hroom
  obtain ⟨_, _, htrail⟩ := (holds_start m s n input output).drive hs (Nat.not_lt.mp hroom)
  have hsame := congrArg rows htrail
  rw [rows_map_freed] at hsame
  exact hroom (hsame ▸ hlong)

private theorem executed_of_moment {pre post : List (Execution σ)} {z : Execution σ} {st : Stride σ}
    (hz : ((m.tracedOn s).start input output).trail perform ws = pre ++ z :: post)
    (hst : z.stride? = some st) : ∃ rest, (m.tracedOn s.freed).executed ws input output =
      (pre.map freed).filterMap stride? ++ st.tracedBy (Option.map Tracer.freed) :: rest := by
  obtain ⟨rest, hrest⟩ := trail_prefix_freed ((m.tracedOn s).start input output) ws
  have hfreed : z.freed.stride? = some (st.tracedBy (Option.map Tracer.freed)) := by
    rw [freed, stride?_tracedBy, hst]
    rfl
  rw [hz, List.map_append, List.map_cons, List.append_assoc] at hrest
  refine ⟨(post.map freed ++ rest).filterMap stride?, ?_⟩
  rw [← List.filterMap_cons_some hfreed, ← List.filterMap_append]
  exact congrArg _ hrest.symm

/-- Each instruction of a run leads to where its test and its partner say, and is counted after
those before it. -/
private theorem executed_leads (hm : m.Remembers ∧ m.Inside p) (hquiet : m.Quiet) {k : Nat}
    {st : Stride σ} (hst : (m.executed ws input output)[k]? = some st) :
    st.after.steps = k ∧ st.after.ip = (st.before.target? st.instruction).getD st.before.ip ∧
      ∀ j, st.before.target? st.instruction = some j → Bracket.Partner p st.before.ip j := by
  obtain ⟨hmem, hsteps, hd, hperform⟩ :=
    exists_moment_of_stride (x := m.start input output) hquiet rfl hst
  have hb := (steady_bounded p).trail (bounded_start hm input output) ws st.before hmem
  obtain ⟨_, hi⟩ := due?_eq_some_iff.mp hd
  obtain ⟨hlanding, _⟩ := landing_of_perform hb.remembers hi hperform
  have hkept := kept_perform st.instruction st.before
  rw [hperform] at hkept
  refine ⟨hkept.steps.trans hsteps, hlanding, fun j hj => ?_⟩
  obtain ⟨d, hd, hj⟩ := Option.bind_eq_some_iff.mp hj
  obtain ⟨_, hj⟩ := Option.ite_none_right_eq_some.mp hj
  rw [Instruction.direction?_eq_some_iff.mp hd] at hi
  rw [← hb.inside.program]
  refine (Bracket.scan_eq_ok_iff_partner hi).mp ?_
  cases hscan : Bracket.scan st.before.program st.before.ip d with
  | ok k => rw [hscan] at hj; rw [Option.some.inj hj]
  | error e => rw [hscan] at hj; cases hj

/-- A table that has not room for all rows ends the run at the first row that does not fit. -/
private theorem runBy_of_table_too_long (hm : m.Remembers ∧ m.Inside p) (hs : s.room = some n)
    {strides : List (Stride σ)} (hstrides : (m.tracedOn s.freed).executed ws input output = strides)
    (hlong : n < (Trace.table false (strides.map Stride.row)).length) :
    ∃ k st x, strides[k]? = some st ∧
      (Trace.table false ((strides.take k).map Stride.row)).length ≤ n ∧
      n < (Trace.table false ((strides.take (k + 1)).map Stride.row)).length ∧
      (m.tracedOn s).runBy perform ws input output =
        .ended x (.error (.error (.stream st.before.ip s.refusal))) ∧
      x.CutAt p (s.stored.toList ++ (Trace.table false (strides.map Stride.row)).take n) k st ∧
      x.Spent (s.holding ((Trace.table false (strides.map Stride.row)).take n)) := by
  subst hstrides
  obtain ⟨pre, z, post, st, hz, hst, hfits, hfirst⟩ := exists_overrun hs hlong
  have hholds := (historic_holds hs).moment (holds_start m s n input output) hz
  obtain ⟨t, ht, htick⟩ := hholds.tick_of_not_fits hs hst hfirst
  have hmem : z ∈ ((m.tracedOn s).start input output).trail perform ws := by simp [hz]
  have hrun := runBy_of_failed hmem htick
  obtain ⟨rest, hexecuted⟩ := executed_of_moment hz hst
  have hfront : ((pre.map freed).filterMap stride?).map Stride.row = rows pre := rows_map_freed pre
  have hrow : (st.tracedBy (Option.map Tracer.freed)).row = st.row := rfl
  have hk : ((m.tracedOn s.freed).executed ws input output)[
      ((pre.map freed).filterMap stride?).length]? = some (st.tracedBy (Option.map Tracer.freed)) := by
    rw [hexecuted, List.getElem?_append_right le_rfl, Nat.sub_self]
    rfl
  have htext : (Trace.table false
      (((m.tracedOn s.freed).executed ws input output).map Stride.row)).take n =
        (Trace.table false (rows pre ++ [st.row])).take n := by
    rw [hexecuted, List.map_append, List.map_cons, hfront, hrow, List.append_cons,
      Trace.table_append, List.take_append_of_le_length hfirst.le]
  obtain ⟨hsteps, hip, htarget⟩ := executed_leads
    ((lasting_inside (σ := σ) p).tracer m _ hm) (quiet_tracedOn m s) hk
  have hz' : z.ip = st.before.ip := congrArg (·.ip) (stride?_eq_some_iff.mp hst).1.symm
  rw [hz'] at hrun
  refine ⟨_, _, _, hk, ?_, ?_, hrun, ?_, ?_⟩
  · rw [hexecuted, List.take_left, hfront]
    exact hfits
  · rw [hexecuted, List.take_length_add_append, List.map_append, hfront]
    exact hfirst
  · rw [htext]
    refine ⟨⟨t.flush.1, rfl, ?_⟩, hsteps, rfl, rfl, rfl, rfl, rfl, hip, htarget⟩
    have hflush : t.flush.1.sink.stored = t.sink.stored := rfl
    rw [hflush, ht, Sink.toList_holding]
  · rw [htext]
    refine ⟨t.flush.1, rfl, ?_, ?_, ?_⟩
    · have hroom : t.flush.1.sink.room = t.sink.room := rfl
      rw [hroom, ht, Sink.room_holding hs, List.length_take_of_le hfirst.le, Nat.sub_self]
    · exact congrArg (·.stored) ht
    · exact congrArg (·.refusal) ht

end Ending

/-- A run under a new tracer on a device with room for `n` bytes, beside the run under one on the
same device freed. If the table of the free run has room, the two differ in nothing but the last
flush of the table. Otherwise the run ends at the first instruction whose row does not fit. This has
been carried out, but it is not counted; the first `n` bytes of the table are kept, and the output is
flushed. Later runs add nothing to the table, and each ends at its first instruction that does not
fail. -/
theorem table_fault_ends_run (p : Program) (c : Config) (es : List (Event σ))
    (ws : List (Option Bool)) (input : Source) (output : σ) (s : Sink) (n : Nat)
    (hs : s.room = some n) :
    let m := (Machine.new p c).after es
    let strides := (m.tracedOn s.freed).executed ws input output
    let text := Trace.table false (strides.map Stride.row)
    (∃ t, ((m.tracedOn s.freed).runBy perform ws input output).state.tracer = some t ∧
      t.sink.stored.toList = s.stored.toList ++ text) ∧
    (text.length ≤ n →
      ((m.tracedOn s.freed).start input output).drive perform ws =
        (((m.tracedOn s).start input output).drive perform ws).map freed ∧
      ∀ x r, (m.tracedOn s.freed).runBy perform ws input output = .ended x r →
        ∃ y, y.freed = x ∧ (m.tracedOn s).runBy perform ws input output =
          .ended y (match s.flushFaults.lookup s.flushes.size with
            | none => r
            | some e => r *> .error (.error (.stream p.size e)))) ∧
    (n < text.length → ∃ k st x, strides[k]? = some st ∧
      (Trace.table false ((strides.take k).map Stride.row)).length ≤ n ∧
      n < (Trace.table false ((strides.take (k + 1)).map Stride.row)).length ∧
      (m.tracedOn s).runBy perform ws input output =
        .ended x (.error (.error (.stream st.before.ip s.refusal))) ∧
      x.CutAt p (s.stored.toList ++ text.take n) k st ∧
      ∀ es' : List (Event σ), KeepsTracer es' →
        (∃ t, (x.toMachine.after es').tracer = some t ∧
          t.sink.stored.toList = s.stored.toList ++ text.take n) ∧
        ∀ (ws' : List (Option Bool)) (input' : Source) (output' : σ),
          match ((x.toMachine.after es').untraced.executed ws' input' output').head? with
          | none => ((x.toMachine.after es').untraced.start input' output').drive perform ws' =
              (((x.toMachine.after es').start input' output').drive perform ws').map
                Execution.untraced
          | some st' => ∃ x', (x.toMachine.after es').runBy perform ws' input' output' =
              .ended x' (.error (.error (.stream st'.before.ip s.refusal)))) := by
  intro m strides text
  have hm : m.Remembers ∧ m.Inside p :=
    (lasting_inside p).after ⟨remembers_new p c, inside_new p c⟩ es
  refine ⟨?_, runBy_of_table_fits hm hs, fun hlong => ?_⟩
  · have hgained := gained_executed (quiet_tracedOn m s) ws input output
    cases ht : ((m.tracedOn s.freed).runBy perform ws input output).state.tracer with
    | none => rw [ht] at hgained; cases hgained
    | some t =>
      rw [ht] at hgained
      cases hgained with
      | some hwrote => exact ⟨t, rfl, hwrote.text⟩
  · obtain ⟨k, st, x, hk, hfits, hfirst, hrun, hcut, hspent⟩ :=
      runBy_of_table_too_long hm hs rfl hlong
    refine ⟨k, st, x, hk, hfits, hfirst, hrun, hcut, fun es' hes' => ?_⟩
    have hafter := hspent.after hes'
    refine ⟨?_, fun ws' input' output' => (hafter.runBy ws' input' output').2⟩
    obtain ⟨t, ht, _, hstored, _⟩ := hafter
    exact ⟨t, ht, by rw [hstored, Sink.toList_holding]⟩

/-- A device with room for three bytes cuts off the header. The first instruction has been carried
out then, and not counted. -/
theorem header_cut_off : ∃ x,
    ((Machine.new (.ofList ['+', '>']) {}).tracedOn { Sink.full with capacity := some 3 }).runBy
      perform (List.replicate 3 none) (.ofBytes []) Sink.unlimited =
        .ended x (.error (.error (.stream 0 .noSpaceLeft))) ∧
    x.steps = 0 ∧ x.current = 1 ∧
    ∃ t, x.tracer = some t ∧ t.sink.stored.toList = "STE".toUTF8.toList := by
  obtain ⟨_, _, hlong⟩ := table_fault_ends_run (.ofList ['+', '>']) {} []
    (List.replicate 3 none) (.ofBytes []) Sink.unlimited { Sink.full with capacity := some 3 } 3 rfl
  obtain ⟨k, st, x, hk, hfits, _, hrun, hcut, _⟩ := hlong (by decide +kernel)
  cases k with
  | zero =>
    have hip : some 0 = some st.before.ip :=
      Eq.trans (by decide +kernel) (congrArg (Option.map (·.before.ip)) hk)
    have hcurrent : some 1 = some st.after.current :=
      Eq.trans (by decide +kernel) (congrArg (Option.map (·.after.current)) hk)
    have hx : x.current = st.after.current := by
      rw [Machine.current, hcut.tape, hcut.pointer]
      rfl
    rw [← Option.some.inj hip] at hrun
    obtain ⟨t, ht, htext⟩ := hcut.stored
    exact ⟨x, hrun, hcut.steps, hx.trans (Option.some.inj hcurrent).symm, t, ht,
      htext.trans (by decide +kernel)⟩
  | succ k =>
    rw [Nat.add_comm, List.take_add, List.map_append] at hfits
    have hfirst := (Trace.length_table_le false _ _).trans hfits
    exact absurd hfirst (by decide +kernel)

end Machine
end ByteTape
