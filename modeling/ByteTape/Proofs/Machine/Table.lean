import ByteTape.Proofs.Machine.Moments
import ByteTape.Proofs.Stream.Unfailing
import ByteTape.Text.Utf8

/-! The table that a run writes by a tracer that never fails: one row for each instruction
performed, in order, under a header that is written once. -/
namespace ByteTape

private theorem loop_eq (bs : ByteArray) (i : Nat) (r : List UInt8) :
    ByteArray.toList.loop bs i r = r.reverse ++ bs.data.toList.drop i := by
  fun_induction ByteArray.toList.loop bs i r with
  | case1 i r hi ih =>
    have hlt : i < bs.data.toList.length := hi
    have hget : bs.get! i = bs.data.toList[i] := getElem!_pos bs.data i hi
    rw [ih, List.drop_eq_getElem_cons hlt, List.reverse_cons, List.append_assoc, hget]
    rfl
  | case2 i r hi =>
    have hle : bs.data.toList.length ≤ i := Nat.not_lt.mp hi
    rw [List.drop_of_length_le hle, List.append_nil]

theorem Trace.lineBytes_eq_encode (s : String) :
    lineBytes s = Text.Utf8.encode (s.toList ++ ['\n']) := by
  have htext : s ++ "\n" = String.ofList (s.toList ++ ['\n']) := by simp
  rw [lineBytes, htext, String.toUTF8_eq_toByteArray, String.toByteArray_ofList, ByteArray.toList,
    loop_eq, List.utf8Encode, List.toList_data_toByteArray]
  rfl

/-- What these rows add to a table that is headed already, or is not. -/
def Trace.table (headed : Bool) (rows : List Row) : List UInt8 :=
  (if headed || rows.isEmpty then [] else lineBytes header ++ lineBytes rule) ++
    rows.flatMap fun r => lineBytes r.text

theorem Trace.table_append (headed : Bool) (rows rows' : List Row) :
    table headed (rows ++ rows') =
      table headed rows ++ table (headed || !rows.isEmpty) rows' := by
  cases headed <;> cases rows <;> simp [table]

namespace Tracer

/-- The tracer `t'` is the tracer `t` after these rows, with a sink that never fails. -/
structure Wrote (rows : List Trace.Row) (t t' : Tracer) : Prop where
  sturdy : t'.sink.Sturdy
  headed : t'.headed = (t.headed || !rows.isEmpty)
  text : t'.sink.stored.toList = t.sink.stored.toList ++ Trace.table t.headed rows

variable {t t' t'' : Tracer} {rows rows' : List Trace.Row}

theorem wrote_nil (h : t.sink.Sturdy) : Wrote [] t t where
  sturdy := h
  headed := by simp
  text := by simp [Trace.table]

theorem Wrote.trans (h : Wrote rows t t') (h' : Wrote rows' t' t'') :
    Wrote (rows ++ rows') t t'' where
  sturdy := h'.sturdy
  headed := by cases rows <;> simp [h'.headed, h.headed]
  text := by rw [h'.text, h.text, h.headed, Trace.table_append, List.append_assoc]

private theorem head_of_sturdy (h : t.sink.Sturdy) :
    ∃ t', t.head = (t', .ok ()) ∧ t'.sink.Sturdy ∧ t'.headed = true ∧
      t'.sink.stored.toList = t.sink.stored.toList ++
        (if t.headed then [] else
          Trace.lineBytes Trace.header ++ Trace.lineBytes Trace.rule) := by
  unfold head
  cases hh : t.headed with
  | true => exact ⟨t, rfl, h, hh, by simp⟩
  | false =>
    obtain ⟨s, hw, hs, htext⟩ := Sink.write_of_sturdy h
      (Trace.lineBytes Trace.header ++ Trace.lineBytes Trace.rule)
    exact ⟨⟨s, true⟩, by simp [hw], hs, rfl, by simpa using htext⟩

theorem row_of_sturdy (h : t.sink.Sturdy) (r : Trace.Row) :
    ∃ t', t.row r = (t', .ok ()) ∧ Wrote [r] t t' := by
  obtain ⟨u, hu, hsturdy, hheaded, htext⟩ := head_of_sturdy h
  obtain ⟨s, hw, hs, hline⟩ := Sink.write_of_sturdy hsturdy (Trace.lineBytes r.text)
  refine ⟨⟨s, u.headed⟩, by simp [row, hu, hw], ⟨hs, by simp [hheaded], ?_⟩⟩
  rw [hline, htext]
  simp [Trace.table]

private theorem flush_of_sturdy (h : t.sink.Sturdy) :
    ∃ t', t.flush = (t', .ok ()) ∧ Wrote [] t t' := by
  obtain ⟨s, hf, hs, htext⟩ := Sink.flush_of_sturdy h
  exact ⟨⟨s, t.headed⟩, by simp [flush, hf], ⟨hs, by simp, by simp [htext, Trace.table]⟩⟩

end Tracer

def Machine.Quiet (m : Machine) : Prop := ∀ t ∈ m.tracer, t.sink.Sturdy

/-- These rows have gone into the table of a machine with the tracer `t`, if there is one,
and have left the tracer `t'`. -/
abbrev Tracer.Gained (rows : List Trace.Row) (t t' : Option Tracer) : Prop :=
  Option.Rel (Wrote rows) t t'

namespace Tracer
variable {t t' t'' : Option Tracer} {rows rows' : List Trace.Row}

theorem gained_nil {m : Machine} (h : m.Quiet) : Gained [] m.tracer m.tracer := by
  cases ht : m.tracer with
  | none => exact .none
  | some t => exact .some (wrote_nil (h t ht))

theorem Gained.trans (h : Gained rows t t') (h' : Gained rows' t' t'') :
    Gained (rows ++ rows') t t'' := by
  cases h with
  | none =>
    cases h'
    exact .none
  | some h =>
    cases h' with
    | some h' => exact .some (h.trans h')

theorem Gained.quiet {m : Machine} (h : Gained rows t m.tracer) : m.Quiet := by
  intro u hu
  rw [hu] at h
  cases h with
  | some h => exact h.sturdy

end Tracer

namespace Execution
variable {σ : Type} {x y : Execution σ}

private theorem record_of_quiet (h : x.Quiet) (i : Instruction) (before : Snapshot) :
    ∃ t, x.record i before = ({ x with tracer := t }, .ok ()) ∧
      Tracer.Gained [x.row i before] x.tracer t := by
  cases ht : x.tracer with
  | none =>
    have hsame : x.record i before = (x, .ok ()) := by simp [record, ht]
    exact ⟨x.tracer, hsame, by rw [ht]; exact .none⟩
  | some t =>
    obtain ⟨t', hrow, hwrote⟩ := Tracer.row_of_sturdy (h t ht) (x.row i before)
    exact ⟨some t', by simp [record, ht, hrow], .some hwrote⟩

theorem flushTracer_of_quiet (h : x.Quiet) :
    ∃ t, x.flushTracer = ({ x with tracer := t }, .ok ()) ∧ Tracer.Gained [] x.tracer t := by
  cases ht : x.tracer with
  | none =>
    have hsame : x.flushTracer = (x, .ok ()) := by simp [flushTracer, ht]
    exact ⟨x.tracer, hsame, by rw [ht]; exact .none⟩
  | some t =>
    obtain ⟨t', hflush, hwrote⟩ := Tracer.flush_of_sturdy (h t ht)
    exact ⟨some t', by simp [flushTracer, ht, hflush], .some hwrote⟩

variable [ByteOutput σ]

/-- A tracer that never fails records each instruction that is performed, and this disturbs nothing
else. -/
theorem exists_record_of_perform {i : Instruction} (h : x.Quiet) (hp : x.perform i = (y, .ok ())) :
    ∃ t, y.record i x.snapshot = ({ y with tracer := t }, .ok ()) ∧
      Tracer.Gained [y.row i x.snapshot] x.tracer t := by
  have hkept := (kept_perform i x).tracer
  rw [hp] at hkept
  rw [← hkept]
  exact record_of_quiet (fun t ht => h t (hkept ▸ ht)) i x.snapshot

/-- A tick writes the row of the instruction that it performs, and nothing else. -/
theorem gained_tick (h : x.Quiet) :
    Tracer.Gained x.row?.toList x.tracer x.tick.state.tracer := by
  have hnil : Tracer.Gained [] x.tracer x.tracer := Tracer.gained_nil h
  rw [← tickBy_perform]
  rcases x.tickBy_cases perform with ⟨hc, he⟩ | ⟨c, hc, hi, he⟩ | ⟨i, e, hc, hv, he⟩ |
    ⟨i, hc, hv, he⟩
  · simpa [he, row?, rowBy?, hc, Progress.state] using hnil
  · simpa [he, row?, rowBy?, hc, hi, Progress.state] using hnil
  · simpa [he, row?, rowBy?, hv, Progress.state] using hnil
  · rw [he]
    rcases hp : x.perform i with ⟨y, e | _⟩
    · have hkept := (kept_perform i x).tracer
      rw [hp] at hkept
      simp only at hkept
      simpa [executeBy, hp, row?, rowBy?, hc, hv, Progress.state, hkept] using hnil
    · obtain ⟨t, hr, hgained⟩ := exists_record_of_perform h hp
      rw [row?_of_perform_ok hc hv hp]
      simpa [executeBy, hp, hr, Progress.state] using hgained

theorem steady_quiet : Steady (σ := σ) perform (·.Quiet) where
  signal x w h := by cases w <;> exact h
  tick x y h ht := by
    have hgained := gained_tick h
    rw [← tickBy_perform, ht] at hgained
    exact hgained.quiet

theorem gained_drive (h : x.Quiet) (ws : List (Option Bool)) :
    Tracer.Gained ((x.trail perform ws).filterMap row?) x.tracer
      (x.drive perform ws).state.tracer := by
  induction ws generalizing x with
  | nil => exact Tracer.gained_nil h
  | cons w ws ih =>
    have hw : (x.signal w).Quiet := steady_quiet.signal x w h
    have htracer : (x.signal w).tracer = x.tracer := by cases w <;> rfl
    have ht := gained_tick hw
    rw [htracer] at ht
    simp only [drive, trail, tickBy_perform, List.filterMap_eq_flatMap_toList,
      List.flatMap_cons] at ih ⊢
    cases he : (x.signal w).tick with
    | running y =>
      rw [he] at ht
      exact ht.trans (ih ht.quiet)
    | ended y result =>
      rw [he] at ht
      simpa [Progress.state] using ht

private theorem gained_conclude (h : x.Quiet) (result : Except Fault Unit) :
    Tracer.Gained [] x.tracer (x.conclude result).1.tracer := by
  unfold conclude
  split
  · exact Tracer.gained_nil h
  · let y : Execution σ := { x with output := (ByteOutput.flush x.output).1 }
    obtain ⟨t, hf, hgained⟩ := flushTracer_of_quiet (x := y) h
    show Tracer.Gained [] x.tracer y.flushTracer.1.tracer
    rw [hf]
    exact hgained

end Execution

namespace Machine
variable {σ : Type} [ByteOutput σ] {m : Machine}

/-- A run adds a row for each instruction that it performs, in their order, and the header
before them if the table was not yet headed. -/
theorem gained_runBy (h : m.Quiet) (ws : List (Option Bool)) (input : Source) (output : σ) :
    Tracer.Gained (((m.start input output).trail Execution.perform ws).filterMap Execution.row?)
      m.tracer (m.runBy Execution.perform ws input output).state.tracer := by
  have hd := Execution.gained_drive (x := m.start input output) h ws
  unfold runBy
  cases he : (m.start input output).drive Execution.perform ws with
  | running x =>
    rw [he] at hd
    exact hd
  | ended x result =>
    rw [he] at hd
    have hlast := hd.trans (x.gained_conclude hd.quiet result)
    rwa [List.append_nil] at hlast

end Machine
end ByteTape
