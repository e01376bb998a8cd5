import ByteTape.Stream.Output

/-! Outputs that show what has been stored on them, byte by byte. -/
namespace ByteTape

/-- A reading of the bytes stored on an output. A byte that was put stands at the end of
them, unless it was refused, and a flush stores nothing. -/
structure ByteOutput.Account (σ : Type) [ByteOutput σ] where
  stored : σ → List UInt8
  put_ok : ∀ o o' b, ByteOutput.put o b = (o', .ok ()) → stored o' = stored o ++ [b]
  put_error : ∀ o o' b e, ByteOutput.put o b = (o', .error e) → stored o' = stored o
  flush : ∀ o, stored (ByteOutput.flush o).1 = stored o

/-- An account that also tells of each flush how many bytes were stored when it came. -/
structure ByteOutput.Ledger (σ : Type) [ByteOutput σ] extends ByteOutput.Account σ where
  notes : σ → List Nat
  notes_put : ∀ o b, notes (ByteOutput.put o b).1 = notes o
  notes_flush : ∀ o, notes (ByteOutput.flush o).1 = notes o ++ [(stored o).length]

namespace Sink
variable {s s' : Sink} {b : UInt8}

theorem toList_write_of_ok {bytes : List UInt8} (h : s.write bytes = (s', .ok ())) :
    s'.stored.toList = s.stored.toList ++ bytes := by
  simp only [write] at h
  split at h
  · obtain ⟨rfl, _⟩ := Prod.mk.inj h
    simp
  · rename_i room _
    obtain ⟨rfl, hok⟩ := Prod.mk.inj h
    have hroom : bytes.length ≤ room := by
      split at hok
      · assumption
      · cases hok
    simp [List.take_of_length_le hroom]

private theorem stored_of_put_error {e : StreamError}
    (h : ByteOutput.put s b = (s', .error e)) : s'.stored.toList = s.stored.toList := by
  simp only [ByteOutput.put, write] at h
  split at h
  · cases h
  · rename_i room _
    obtain ⟨rfl, herr⟩ := Prod.mk.inj h
    have hroom : room = 0 := by
      split at herr
      · cases herr
      · rename_i hlen
        simp only [List.length_singleton] at hlen
        omega
    simp [hroom]

def account : ByteOutput.Account Sink where
  stored s := s.stored.toList
  put_ok _ _ _ h := toList_write_of_ok h
  put_error _ _ _ _ h := stored_of_put_error h
  flush _ := rfl

/-- Writing does not touch the notes of a device. -/
theorem flushes_write (s : Sink) (bytes : List UInt8) : (s.write bytes).1.flushes = s.flushes := by
  unfold write
  split <;> rfl

def ledger : ByteOutput.Ledger Sink where
  toAccount := account
  notes s := s.flushes.toList
  notes_put s b := by rw [ByteOutput.put, instByteOutputSink, flushes_write]
  notes_flush s := by simp [ByteOutput.flush, flush, account]

end Sink

def ByteOutput.Account.belled {σ : Type} [ByteOutput σ] (a : ByteOutput.Account σ) :
    ByteOutput.Account (Belled σ) where
  stored s := a.stored s.output
  put_ok s _ b h := by
    obtain ⟨rfl, hok⟩ := Prod.mk.inj h
    exact a.put_ok s.output _ b (Prod.ext rfl hok)
  put_error s _ b e h := by
    obtain ⟨rfl, herror⟩ := Prod.mk.inj h
    exact a.put_error s.output _ b e (Prod.ext rfl herror)
  flush s := a.flush s.output
end ByteTape
