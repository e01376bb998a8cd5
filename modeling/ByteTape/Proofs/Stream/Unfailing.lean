import ByteTape.Stream.Output

/-! Outputs that never fail, and what has been written to them. -/
namespace ByteTape

/-- A class of outputs from which every operation succeeds and leads back into it. -/
structure ByteOutput.Unfailing (σ : Type) [ByteOutput σ] where
  good : σ → Prop
  /-- All the bytes that were put, flushed or not. -/
  written : σ → List UInt8
  put : ∀ o b, good o → ∃ o', ByteOutput.put o b = (o', .ok ()) ∧ good o' ∧
    written o' = written o ++ [b]
  flush : ∀ o, good o → ∃ o', ByteOutput.flush o = (o', .ok ()) ∧ good o' ∧
    written o' = written o

namespace Sink

/-- No write is refused, and every flush that is to fail lies in the past. -/
structure Sturdy (s : Sink) : Prop where
  capacity : s.capacity = none
  faults : (s.flushFaults.all fun f => f.1 < s.flushes.size) = true

theorem write_of_sturdy {s : Sink} (h : s.Sturdy) (bytes : List UInt8) :
    ∃ s', s.write bytes = (s', .ok ()) ∧ s'.Sturdy ∧
      s'.stored.toList = s.stored.toList ++ bytes := by
  have hw := toList_write_of_capacity_none h.capacity bytes
  have he : s.write bytes = ({ s with stored := s.stored.appendList bytes }, .ok ()) := by
    simp [write, room, h.capacity]
  rw [he] at hw
  exact ⟨_, he, ⟨h.capacity, h.faults⟩, hw⟩

theorem flush_of_sturdy {s : Sink} (h : s.Sturdy) :
    ∃ s', s.flush = (s', .ok ()) ∧ s'.Sturdy ∧ s'.stored.toList = s.stored.toList := by
  have hpast : ∀ f ∈ s.flushFaults, f.1 < s.flushes.size := by simpa using h.faults
  have hnone : s.flushFaults.lookup s.flushes.size = none := by
    rw [List.lookup_eq_none_iff]
    intro f hf
    simpa using Nat.ne_of_gt (hpast f hf)
  refine ⟨{ s with flushes := s.flushes.push s.stored.size }, by simp [flush, hnone],
    ⟨h.capacity, ?_⟩, rfl⟩
  simp only [List.all_eq_true, decide_eq_true_eq, Array.size_push]
  exact fun f hf => Nat.lt_succ_of_lt (hpast f hf)

def unfailing : ByteOutput.Unfailing Sink where
  good := Sturdy
  written s := s.stored.toList
  put _ b h := write_of_sturdy h [b]
  flush _ h := flush_of_sturdy h

end Sink

namespace LineBuffered

private theorem transfer_of_sturdy {s : LineBuffered} (h : s.device.Sturdy) :
    ∃ d, s.transfer = (⟨#[], d⟩, .ok ()) ∧ d.Sturdy ∧
      d.stored.toList = s.device.stored.toList ++ s.pending.toList := by
  obtain ⟨d, hw, hd, hs⟩ := Sink.write_of_sturdy h s.pending.toList
  exact ⟨d, by simp [transfer, hw], hd, hs⟩

def unfailing : ByteOutput.Unfailing LineBuffered where
  good s := s.device.Sturdy
  written s := s.device.stored.toList ++ s.pending.toList
  put s b h := by
    have hroom : ∃ t : LineBuffered,
        (if s.pending.size < capacity then (s, .ok ()) else s.transfer) = (t, .ok ()) ∧
        t.device.Sturdy ∧ t.device.stored.toList ++ t.pending.toList =
          s.device.stored.toList ++ s.pending.toList := by
      split
      · exact ⟨s, rfl, h, rfl⟩
      · obtain ⟨d, ht, hd, hs⟩ := transfer_of_sturdy h
        exact ⟨⟨#[], d⟩, ht, hd, by simp [hs]⟩
    obtain ⟨t, ht, hd, hs⟩ := hroom
    simp only [ByteOutput.put, put, ht]
    split
    · obtain ⟨d, hx, hd', hs'⟩ := transfer_of_sturdy (s := ⟨t.pending.push b, t.device⟩) hd
      refine ⟨_, hx, hd', ?_⟩
      simp [hs', ← hs]
    · refine ⟨_, rfl, hd, ?_⟩
      simp [← hs]
  flush s h := by
    obtain ⟨d, ht, hd, hs⟩ := transfer_of_sturdy h
    exact ⟨_, ht, hd, by simp [hs]⟩

end LineBuffered
end ByteTape
