import ByteTape.Proofs.Machine.OutputFaults

/-! Tables on a device with limited room. Of what is written there the first bytes are kept, as many
as fit, and nothing once it is full. -/
namespace ByteTape

private theorem Trace.lineBytes_ne_nil (s : String) : lineBytes s ≠ [] := by
  rw [lineBytes_eq_encode, Text.Utf8.encode, List.flatMap_append]
  exact List.append_ne_nil_of_right_ne_nil _ (by decide)

namespace Sink
variable {s : Sink} {c : Nat} {bs line : List UInt8}

def holding (s : Sink) (bs : List UInt8) : Sink := { s with stored := s.stored.appendList bs }

@[simp] theorem toList_holding (s : Sink) (bs : List UInt8) :
    (s.holding bs).stored.toList = s.stored.toList ++ bs := by
  simp [holding]

theorem room_holding (hs : s.room = some c) (bs : List UInt8) :
    (s.holding bs).room = some (c - bs.length) := by
  obtain ⟨n, hn, rfl⟩ := Option.map_eq_some_iff.mp hs
  have hcapacity : (s.holding bs).capacity = some n := hn
  simp only [room, hcapacity, Option.map_some, Option.some.injEq, ← Array.length_toList,
    toList_holding, List.length_append]
  omega

private theorem write_holding (hs : s.room = some c) (hb : bs.length ≤ c) (line : List UInt8) :
    (s.holding bs).write line = (s.holding ((bs ++ line).take c),
      if (bs ++ line).length ≤ c then .ok () else .error s.refusal) := by
  have hfits : line.length ≤ c - bs.length ↔ (bs ++ line).length ≤ c := by
    rw [List.length_append]
    omega
  have hstored : (s.stored.appendList bs).appendList (line.take (c - bs.length)) =
      s.stored.appendList ((bs ++ line).take c) := by
    rw [← Array.toList_inj, List.take_append, List.take_of_length_le hb]
    simp
  simp only [write, room_holding hs, hfits]
  exact congrArg (Prod.mk · _) (congrArg (fun a => { s with stored := a }) hstored)

private theorem write_of_fits (hs : s.room = some c) (h : (bs ++ line).length ≤ c) :
    (s.holding bs).write line = (s.holding (bs ++ line), .ok ()) := by
  have hb : bs.length ≤ c := by
    rw [List.length_append] at h
    omega
  rw [write_holding hs hb, if_pos h, List.take_of_length_le h]

private theorem write_of_not_fits (hs : s.room = some c) (hb : bs.length ≤ c)
    (h : c < (bs ++ line).length) :
    (s.holding bs).write line = (s.holding ((bs ++ line).take c), .error s.refusal) := by
  rw [write_holding hs hb, if_neg (Nat.not_le.mpr h)]

/-- On a device with no room left every write is refused and nothing of it kept. -/
theorem write_of_full (hs : s.room = some 0) (h : line ≠ []) :
    s.write line = (s, .error s.refusal) := by
  have hlength : ¬ line.length ≤ 0 := by
    simpa using h
  simp [write, hs, hlength]

private theorem write_of_ok (h : (s.write line).2 = .ok ()) :
    s.write line = (s.holding line, .ok ()) := by
  cases hr : s.room with
  | none => simp [write, hr, holding]
  | some n =>
    have hfits : line.length ≤ n := by
      by_contra hlong
      simp [write, hr, hlong] at h
    simp [write, hr, holding, hfits, List.take_of_length_le hfits]

private theorem write_freed (h : (s.write line).2 = .ok ()) :
    s.freed.write line = ((s.write line).1.freed, .ok ()) := by
  rw [write_of_ok h, write_of_ok (s := s.freed) (by simp [write, freed, room])]
  rfl

end Sink

namespace Tracer
open Trace
variable {s : Sink} {c : Nat} {bs : List UInt8} {headed : Bool} {rows : List Row} {r : Row}

def top (headed : Bool) : List UInt8 := if headed then [] else lineBytes header ++ lineBytes rule

private theorem table_singleton (headed : Bool) (r : Row) :
    table headed [r] = top headed ++ lineBytes r.text := by
  simp [table, top]

private theorem head_false (sink : Sink) : head ⟨sink, false⟩ =
    match sink.write (top false) with
    | (sink, .ok ()) => (⟨sink, true⟩, .ok ())
    | (sink, .error e) => (⟨sink, false⟩, .error e) := rfl

private theorem head_of_fits (hs : s.room = some c) (h : (bs ++ top headed).length ≤ c) :
    head ⟨s.holding bs, headed⟩ = (⟨s.holding (bs ++ top headed), true⟩, .ok ()) := by
  cases headed with
  | true => simp [head, top]
  | false => rw [head_false, Sink.write_of_fits hs h]

/-- A row that fits is written. -/
theorem row_of_fits (hs : s.room = some c) (h : (bs ++ table headed [r]).length ≤ c) :
    row ⟨s.holding bs, headed⟩ r = (⟨s.holding (bs ++ table headed [r]), true⟩, .ok ()) := by
  rw [table_singleton, ← List.append_assoc] at h ⊢
  have htop : (bs ++ top headed).length ≤ c := by
    rw [List.length_append] at h
    omega
  simp only [row, head_of_fits hs htop, Sink.write_of_fits hs h]

/-- Of a row that does not fit, and of what stands above it, the bytes that fit are written. -/
theorem row_of_not_fits (hs : s.room = some c) (hb : bs.length ≤ c)
    (h : c < (bs ++ table headed [r]).length) : ∃ headed', row ⟨s.holding bs, headed⟩ r =
      (⟨s.holding ((bs ++ table headed [r]).take c), headed'⟩, .error s.refusal) := by
  rw [table_singleton, ← List.append_assoc] at h ⊢
  by_cases htop : (bs ++ top headed).length ≤ c
  · exact ⟨true, by simp only [row, head_of_fits hs htop, Sink.write_of_not_fits hs htop h]⟩
  · cases headed with
    | true => exact absurd (by simpa [top] using hb) htop
    | false =>
      have hhead : head ⟨s.holding bs, false⟩ =
          (⟨s.holding ((bs ++ top false).take c), false⟩, .error s.refusal) := by
        rw [head_false, Sink.write_of_not_fits hs hb (Nat.not_le.mp htop)]
      refine ⟨false, ?_⟩
      rw [List.take_append_of_le_length (by omega)]
      simp only [row, hhead]

/-- A tracer with no room left writes nothing. -/
theorem row_of_full {t : Tracer} (hs : t.sink.room = some 0) (r : Row) :
    t.row r = (t, .error t.sink.refusal) := by
  obtain ⟨sink, headed⟩ := t
  cases headed with
  | true =>
    have hwrite : sink.write (lineBytes r.text) = (sink, .error sink.refusal) :=
      Sink.write_of_full hs (lineBytes_ne_nil r.text)
    simp only [row, head, if_true, hwrite]
  | false =>
    have hhead : head ⟨sink, false⟩ = (⟨sink, false⟩, .error sink.refusal) := by
      rw [head_false, Sink.write_of_full hs (by simp [top, lineBytes_ne_nil])]
    simp only [row, hhead]

/-- The tracer that has written these rows on the device `s`. -/
def below (s : Sink) (rows : List Row) : Tracer := ⟨s.holding (table false rows), !rows.isEmpty⟩

theorem row_below_of_fits (hs : s.room = some c) (h : (table false (rows ++ [r])).length ≤ c) :
    (below s rows).row r = (below s (rows ++ [r]), .ok ()) := by
  rw [table_append, Bool.false_or] at h
  rw [below, row_of_fits hs h, below, table_append, Bool.false_or]
  simp

theorem row_below_of_not_fits (hs : s.room = some c) (hrows : (table false rows).length ≤ c)
    (h : c < (table false (rows ++ [r])).length) : ∃ headed, (below s rows).row r =
      (⟨s.holding ((table false (rows ++ [r])).take c), headed⟩, .error s.refusal) := by
  rw [table_append, Bool.false_or] at h ⊢
  exact row_of_not_fits hs hrows h

def freed (t : Tracer) : Tracer := ⟨t.sink.freed, t.headed⟩

private theorem head_freed {t : Tracer} (h : t.head.2 = .ok ()) :
    t.freed.head = (t.head.1.freed, .ok ()) := by
  obtain ⟨sink, headed⟩ := t
  cases headed with
  | true => rfl
  | false =>
    rw [head_false] at h ⊢
    rcases hw : sink.write (top false) with ⟨sink', e | _⟩
    · rw [hw] at h
      cases h
    · have hok : (sink.write (top false)).2 = .ok () := by rw [hw]
      have hfree := Sink.write_freed hok
      rw [hw] at hfree
      rw [freed, head_false, hfree]
      rfl

/-- A row that is written is written alike on the freed device. -/
theorem row_freed {t : Tracer} (h : (t.row r).2 = .ok ()) :
    t.freed.row r = ((t.row r).1.freed, .ok ()) := by
  unfold row at h ⊢
  rcases hh : t.head with ⟨u, e | _⟩
  · rw [hh] at h
    cases h
  · have hhead := head_freed (t := t) (by rw [hh])
    rw [hh] at h hhead
    have hfree := Sink.write_freed (s := u.sink) h
    simp only [hhead]
    change (Tracer.mk (u.sink.freed.write _).1 u.headed, (u.sink.freed.write _).2) = _
    rw [hfree]
    rfl

end Tracer
end ByteTape
