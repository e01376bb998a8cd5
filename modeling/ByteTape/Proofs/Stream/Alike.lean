import ByteTape.Stream.Output

/-! Outputs that behave alike. No operation tells them apart, now or later, so a run might
as well work with their classes. -/
namespace ByteTape

variable {σ τ : Type} [ByteOutput σ]

/-- Related outputs answer every operation alike and stay related. -/
structure ByteOutput.Alike (R : σ → σ → Prop) : Prop where
  put : ∀ o o' b, R o o' → (ByteOutput.put o b).2 = (ByteOutput.put o' b).2 ∧
    R (ByteOutput.put o b).1 (ByteOutput.put o' b).1
  flush : ∀ o o', R o o' → (ByteOutput.flush o).2 = (ByteOutput.flush o').2 ∧
    R (ByteOutput.flush o).1 (ByteOutput.flush o').1
  rings : ∀ o o', R o o' → ByteOutput.rings o = ByteOutput.rings o'

theorem ByteOutput.alike_eq : ByteOutput.Alike (σ := σ) Eq where
  put _ _ _ h := by simp [h]
  flush _ _ h := by simp [h]
  rings _ _ h := by rw [h]

/-- An output seen through `f` answers as it does itself. -/
structure ByteOutput.Honest [ByteOutput τ] (f : σ → τ) : Prop where
  put : ∀ o b, ByteOutput.put (f o) b = (f (ByteOutput.put o b).1, (ByteOutput.put o b).2)
  flush : ∀ o, ByteOutput.flush (f o) = (f (ByteOutput.flush o).1, (ByteOutput.flush o).2)
  rings : ∀ o, ByteOutput.rings (f o) = ByteOutput.rings o

theorem ByteOutput.honest_id : ByteOutput.Honest (id : σ → σ) :=
  ⟨fun _ _ => rfl, fun _ => rfl, fun _ => rfl⟩

namespace ByteOutput.Alike
variable {R : σ → σ → Prop}

abbrev classes (h : Alike R) : ByteOutput (Quot R) where
  put q b := q.lift (fun o => (Quot.mk R (ByteOutput.put o b).1, (ByteOutput.put o b).2)) <| by
    intro o o' ho
    obtain ⟨houtcome, hrest⟩ := h.put o o' b ho
    rw [houtcome, Quot.sound hrest]
  flush q := q.lift (fun o => (Quot.mk R (ByteOutput.flush o).1, (ByteOutput.flush o).2)) <| by
    intro o o' ho
    obtain ⟨houtcome, hrest⟩ := h.flush o o' ho
    rw [houtcome, Quot.sound hrest]
  rings q := q.lift ByteOutput.rings h.rings

theorem honest_mk (h : Alike R) :
    letI := h.classes
    Honest (Quot.mk R) :=
  letI := h.classes
  ⟨fun _ _ => rfl, fun _ => rfl, fun _ => rfl⟩

end ByteOutput.Alike
end ByteTape
