import ByteTape.Stream.Source
import Mathlib.Logic.Relation

/-! Input scripts as sequences of events. Reads answer one event after the other, and the division
of a script into stretches, its interrupted reads and the marks at its end cannot be told from
them. -/
namespace ByteTape
namespace Source

/-- The readings that an item makes for. An interrupted read makes for none, since it is tried
again, and a read that finds an unexpected end makes for the end of input. -/
def Item.readings : Item → List Reading
  | .data bytes => bytes.map .byte
  | .ended => [.ended]
  | .failure e =>
    match e.kind with
    | .interrupted => []
    | .unexpectedEnd => [.ended]
    | _ => [.failed e]

/-- What the read number `k` from here comes to. Beyond the script there are marks of the end. -/
def event (s : Source) (k : Nat) : Reading := (s.items.flatMap Item.readings)[k]?.getD .ended

private theorem next_cases (items : List Item) :
    (items.flatMap Item.readings = [] ∧ next items = (.ended, [])) ∨
    items.flatMap Item.readings = (next items).1 :: (next items).2.flatMap Item.readings := by
  fun_induction next items with
  | case1 => exact .inl ⟨rfl, rfl⟩
  | case2 rest ih => simpa [Item.readings] using ih
  | case3 b bs rest => exact .inr rfl
  | case4 rest => exact .inr rfl
  | case5 rest e he ih => simpa [Item.readings, he] using ih
  | case6 rest e he => exact .inr (by simp [Item.readings, he])
  | case7 rest e hi hu => exact .inr (by simp [Item.readings])

/-- A read answers the first event and leaves the others. -/
theorem read_event (s : Source) :
    s.read.2 = s.event 0 ∧ ∀ k, s.read.1.event k = s.event (k + 1) := by
  have hread : s.read.2 = (next s.items).1 ∧ s.read.1.items = (next s.items).2 := by
    unfold read
    split <;> rename_i h <;> simp [h]
  unfold event
  rw [hread.1, hread.2]
  rcases next_cases s.items with ⟨hnil, hnext⟩ | hcons
  · simp [hnil, hnext]
  · simp [hcons]

example : (List.range 4).map (ofItems [.data [], .data [7], .failure (.ofKind .interrupted), .ended,
    .data [9]]).event = [.byte 7, .ended, .byte 9, .ended] := by decide

/-- What the reader waits for before it asks for the run to be cancelled, and a read does not
change it. -/
theorem read_waits (s : Source) : s.read.1.alarm = s.alarm ∧ s.read.1.bell = s.bell := by
  unfold read
  split <;> exact ⟨rfl, rfl⟩

/-- Every read is counted, and a byte that is read is counted as delivered. -/
theorem read_count (s : Source) :
    s.read.1.reads = s.reads + 1 ∧
      s.read.1.delivered = s.delivered + if s.read.2 matches .byte _ then 1 else 0 := by
  unfold read
  split
  · exact ⟨rfl, rfl⟩
  · rename_i r rest hbyte h
    rcases r with b | _ | e
    · exact (hbyte b rfl).elim
    · exact ⟨rfl, rfl⟩
    · exact ⟨rfl, rfl⟩

structure Silent (s : Source) : Prop where
  alarm : s.alarm = none
  bell : s.bell = none

namespace Silent
variable {s : Source}

theorem read (h : s.Silent) : s.read.1.Silent :=
  ⟨s.read_waits.1.trans h.alarm, s.read_waits.2.trans h.bell⟩

theorem rings (h : s.Silent) : s.rings = false := by
  simp [Source.rings, h.alarm, h.bell]

end Silent

theorem silent_ofBytes (bytes : List UInt8) : (ofBytes bytes).Silent := ⟨rfl, rfl⟩

/-- No read tells the sources apart, now or later. -/
structure Alike (s s' : Source) : Prop where
  event : ∀ k, s.event k = s'.event k
  delivered : s.delivered = s'.delivered
  alarm : s.alarm = s'.alarm
  reads : s.reads = s'.reads
  bell : s.bell = s'.bell

namespace Alike
variable {s s' : Source}

theorem rings (h : s.Alike s') : s.rings = s'.rings := by
  unfold Source.rings
  rw [h.alarm, h.delivered, h.bell, h.reads]

theorem read (h : s.Alike s') : s.read.2 = s'.read.2 ∧ s.read.1.Alike s'.read.1 := by
  obtain ⟨hanswer, hrest⟩ := s.read_event
  obtain ⟨hanswer', hrest'⟩ := s'.read_event
  obtain ⟨hreads, hcount⟩ := s.read_count
  obtain ⟨hreads', hcount'⟩ := s'.read_count
  obtain ⟨halarm, hbell⟩ := s.read_waits
  obtain ⟨halarm', hbell'⟩ := s'.read_waits
  have hsame : s.read.2 = s'.read.2 := by rw [hanswer, hanswer', h.event]
  refine ⟨hsame, ?_, ?_, ?_, ?_, ?_⟩
  · intro k
    rw [hrest, hrest', h.event]
  · rw [hcount, hcount', hsame, h.delivered]
  · rw [halarm, halarm', h.alarm]
  · rw [hreads, hreads', h.reads]
  · rw [hbell, hbell', h.bell]

end Alike

/-- One script is the other with one stretch of bytes divided, an empty one or an interrupted read
put in somewhere, a mark of the end told by an error, or a mark added at the end. -/
inductive Rescripted : List Item → List Item → Prop
  | divided (before : List Item) (bytes bytes' : List UInt8) (behind : List Item) :
    Rescripted (before ++ .data (bytes ++ bytes') :: behind)
      (before ++ .data bytes :: .data bytes' :: behind)
  | emptied (before behind : List Item) :
    Rescripted (before ++ behind) (before ++ .data [] :: behind)
  | interrupted (before : List Item) (e : StreamError) (behind : List Item)
      (kind : e.kind = .interrupted) :
    Rescripted (before ++ behind) (before ++ .failure e :: behind)
  | told (before : List Item) (e : StreamError) (behind : List Item)
      (kind : e.kind = .unexpectedEnd) :
    Rescripted (before ++ .ended :: behind) (before ++ .failure e :: behind)
  | marked (items : List Item) : Rescripted items (items ++ [.ended])

/-- Nothing that can be read changes when a script is put differently in these ways, any number of
times and back. -/
theorem alike_of_rescripted {s : Source} {items : List Item}
    (h : Relation.EqvGen Rescripted s.items items) : s.Alike { s with items := items } := by
  refine ⟨?_, rfl, rfl, rfl, rfl⟩
  unfold event
  dsimp only
  generalize s.items = items₀ at h
  induction h with
  | rel items items' h =>
    intro k
    cases h with
    | divided => simp [Item.readings]
    | emptied => simp [Item.readings]
    | interrupted before e behind he => simp [Item.readings, he]
    | told before e behind he => simp [Item.readings, he]
    | marked items =>
      have hmark (j : Nat) : [Reading.ended][j]?.getD .ended = .ended := by cases j <;> rfl
      rw [List.flatMap_append, List.getElem?_append]
      split
      · rfl
      · rename_i hk
        rw [List.getElem?_eq_none (Nat.le_of_not_lt hk)]
        exact (hmark _).symm
  | refl => exact fun _ => rfl
  | symm _ _ _ ih => exact fun k => (ih k).symm
  | trans _ _ _ _ _ ih ih' => exact fun k => (ih k).trans (ih' k)

end Source
end ByteTape
