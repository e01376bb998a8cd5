import ByteTape.Proofs.Stream.Account

/-! Outputs seen through the bytes that have been put on them. A buffer and the device behind it
differ in where these bytes are, and in which operation a fault shows, but not in the bytes. -/
namespace ByteTape

structure Transcript where
  bytes : List UInt8
  deriving DecidableEq

namespace Transcript

instance : ByteOutput Transcript where
  put t b := (⟨t.bytes ++ [b]⟩, .ok ())
  flush t := (t, .ok ())
  rings _ := false

def account : ByteOutput.Account Transcript where
  stored := bytes
  put_ok _ _ _ h := (Prod.mk.inj h).1 ▸ rfl
  put_error _ _ _ _ h := nomatch (Prod.mk.inj h).2
  flush _ := rfl

end Transcript

/-- A class of outputs that never ask for a run to be cancelled, and a reading of the bytes put on
them, whether these still wait or not. Nothing is read of an operation that has failed. -/
structure ByteOutput.Transcription (σ : Type) [ByteOutput σ] where
  silent : σ → Prop
  rings : ∀ o, silent o → ByteOutput.rings o = false
  silent_put : ∀ o b, silent o → silent (ByteOutput.put o b).1
  silent_flush : ∀ o, silent o → silent (ByteOutput.flush o).1
  written : σ → List UInt8
  put : ∀ o o' b, ByteOutput.put o b = (o', .ok ()) → written o' = written o ++ [b]
  flush : ∀ o o', ByteOutput.flush o = (o', .ok ()) → written o' = written o

namespace Sink

private theorem alarm_write (s : Sink) (bytes : List UInt8) :
    (s.write bytes).1.alarm = s.alarm := by
  unfold write
  split <;> rfl

private theorem rings_of_alarm {s : Sink} (h : s.alarm = none) : s.rings = false := by
  simp [rings, h]

/-- A device with no room refuses all but nothing. -/
theorem write_of_room {s : Sink} (h : s.room = some 0) (bytes : List UInt8) :
    s.write bytes = (s, if bytes = [] then .ok () else .error s.refusal) := by
  cases bytes <;> simp [write, h]

def transcription : ByteOutput.Transcription Sink where
  silent s := s.alarm = none
  rings _ h := rings_of_alarm h
  silent_put s b h := (alarm_write s [b]).trans h
  silent_flush _ h := h
  written := account.stored
  put := account.put_ok
  flush o o' h := by
    have hflush := account.flush o
    rwa [h] at hflush

end Sink

namespace LineBuffered
variable {s s' : LineBuffered} {b : UInt8}

def written (s : LineBuffered) : List UInt8 := s.device.stored.toList ++ s.pending.toList

def push (s : LineBuffered) (b : UInt8) : LineBuffered := ⟨s.pending.push b, s.device⟩

private theorem written_push (s : LineBuffered) (b : UInt8) :
    (s.push b).written = s.written ++ [b] := by
  simp [written, push]

theorem stored_of_transfer (h : s.transfer = (s', .ok ())) :
    s'.device.stored.toList = s'.written := by
  unfold transfer at h
  split at h
  · obtain ⟨rfl, _⟩ := Prod.mk.inj h
    exact (List.append_nil _).symm
  · cases h

theorem written_of_transfer (h : s.transfer = (s', .ok ())) : s'.written = s.written := by
  unfold transfer at h
  split at h
  · rename_i hw
    obtain ⟨rfl, _⟩ := Prod.mk.inj h
    simp [written, Sink.toList_write_of_ok hw]
  · cases h

/-- A byte is refused for want of room, or it waits behind what has been left waiting. -/
private theorem put_cases (s : LineBuffered) (b : UInt8) :
    (∃ e, s.transfer.2 = .error e ∧ s.put b = (s.transfer.1, .error e)) ∨
    ∃ t, (t = s ∨ s.transfer = (t, .ok ())) ∧
      s.put b = if b = lineFeed then (t.push b).transfer else (t.push b, .ok ()) := by
  by_cases hroom : s.pending.size < capacity
  · exact .inr ⟨s, .inl rfl, by simp [put, hroom, push]⟩
  · rcases ht : s.transfer with ⟨t, e | _⟩
    · exact .inl ⟨e, rfl, by simp [put, hroom, ht]⟩
    · exact .inr ⟨t, .inr rfl, by simp [put, hroom, ht, push]⟩

theorem written_of_put (h : s.put b = (s', .ok ())) : s'.written = s.written ++ [b] := by
  rcases s.put_cases b with ⟨e, _, hput⟩ | ⟨t, ht, hput⟩
  · rw [hput] at h
    cases h
  · have hwritten : t.written = s.written := by
      rcases ht with rfl | ht
      · rfl
      · exact written_of_transfer ht
    rw [← hwritten, ← written_push]
    rw [hput] at h
    split at h
    · exact written_of_transfer h
    · obtain ⟨rfl, _⟩ := Prod.mk.inj h
      rfl

section Device
variable {P : Sink → Prop} (hP : ∀ d bytes, P d → P (Sink.write d bytes).1)
include hP

/-- What writes keep of a device, a transfer keeps of the device behind a buffer. -/
theorem device_transfer (h : P s.device) : P s.transfer.1.device := by
  have hwrite := hP s.device s.pending.toList h
  unfold transfer
  split
  · rename_i hw
    rwa [hw] at hwrite
  · rename_i hw
    rwa [hw] at hwrite

theorem device_put (h : P s.device) (b : UInt8) : P (s.put b).1.device := by
  rcases s.put_cases b with ⟨e, _, hput⟩ | ⟨t, ht, hput⟩
  · rw [hput]
    exact device_transfer hP h
  · have hdevice : P t.device := by
      rcases ht with rfl | ht
      · exact h
      · have htransfer := device_transfer hP h
        rwa [ht] at htransfer
    rw [hput]
    split
    · exact device_transfer (s := t.push b) hP hdevice
    · exact hdevice

end Device

def transcription : ByteOutput.Transcription LineBuffered where
  silent s := s.device.alarm = none
  rings _ h := Sink.rings_of_alarm h
  silent_put _ b h := device_put (fun d bytes hd => (d.alarm_write bytes).trans hd) h b
  silent_flush _ h := device_transfer (fun d bytes hd => (d.alarm_write bytes).trans hd) h
  written := written
  put _ _ _ h := written_of_put h
  flush _ _ h := written_of_transfer h

/-- A device with no room, and nothing on it, takes nothing from the buffer, and all that was put on
this goes on waiting. -/
theorem transfer_of_room (hroom : s.device.room = some 0) (hstored : s.device.stored = #[]) :
    s.transfer = (s, if s.written = [] then .ok () else .error s.device.refusal) := by
  obtain ⟨pending, device⟩ := s
  have hwritten : written ⟨pending, device⟩ = pending.toList := by
    have hdevice : device.stored = #[] := hstored
    simp [written, hdevice]
  rw [hwritten, transfer, Sink.write_of_room hroom]
  by_cases hp : pending.toList = []
  · rw [if_pos hp, Array.toList_eq_nil_iff.mp hp]
  · have hkept : pending.drop (device.stored.size - device.stored.size) = pending := by simp
    rw [if_neg hp]
    simp only [hkept]

end LineBuffered
end ByteTape
