import ByteTape.Proofs.Machine.Moments
import ByteTape.Proofs.Stream.Account

/-! Failing instructions. One that fails with an error of the run has left the machine as
it was and stored nothing; what had been stored before stays stored. -/
namespace ByteTape

/-- The machines cannot be told apart by looking at their state. -/
structure Machine.LooksLike (m m' : Machine) : Prop where
  tape : m.tape = m'.tape
  pointer : m.pointer = m'.pointer
  ip : m.ip = m'.ip
  steps : m.steps = m'.steps
  memo : m.memo = m'.memo

namespace Machine.LooksLike

protected theorem refl (m : Machine) : LooksLike m m := ⟨rfl, rfl, rfl, rfl, rfl⟩

protected theorem symm {m m' : Machine} (h : LooksLike m m') : LooksLike m' m :=
  ⟨h.tape.symm, h.pointer.symm, h.ip.symm, h.steps.symm, h.memo.symm⟩

protected theorem trans {m m' m'' : Machine} (h : LooksLike m m') (h' : LooksLike m' m'') :
    LooksLike m m'' :=
  ⟨h.tape.trans h'.tape, h.pointer.trans h'.pointer, h.ip.trans h'.ip, h.steps.trans h'.steps,
    h.memo.trans h'.memo⟩

end Machine.LooksLike

namespace Execution
variable {σ : Type} {x y : Execution σ} {e : RunError}

theorem change_ne_error {f : UInt8 → UInt8} : x.change f ≠ (y, .error (.error e)) := by
  unfold change
  split <;> simp

private theorem looksLike_heedInput (x : Execution σ) (input : Source) :
    (x.heedInput input).LooksLike x.toMachine :=
  ⟨rfl, rfl, rfl, rfl, rfl⟩

private theorem looksLike_heedOutput [ByteOutput σ] (x : Execution σ) (output : σ) :
    (x.heedOutput output).LooksLike x.toMachine :=
  ⟨rfl, rfl, rfl, rfl, rfl⟩

private theorem accept_error (h : x.accept = (y, .error (.error e))) :
    y.LooksLike x.toMachine ∧ e.ip? = some x.ip := by
  unfold accept at h
  split at h
  · exact absurd h change_ne_error
  · split at h
    · obtain ⟨rfl, he⟩ := Prod.mk.inj h
      cases he
      exact ⟨x.looksLike_heedInput _, rfl⟩
    · exact absurd h change_ne_error
    · cases h
  · obtain ⟨rfl, he⟩ := Prod.mk.inj h
    cases he
    exact ⟨x.looksLike_heedInput _, rfl⟩

private theorem jump_error {d : Direction} (h : x.jump d = (y, .error (.error e))) :
    y.LooksLike x.toMachine ∧ e.ip? = some x.ip := by
  cases hl : x.memo.lookup? x.ip with
  | some target => simp [jump, JumpMemo.resolve, hl] at h
  | none =>
    cases hs : Bracket.scan x.program x.ip d with
    | error e' =>
      have hunmatched := (Bracket.scan_eq_error_iff.mp hs).2
      simp only [jump, JumpMemo.resolve, hl, hs] at h
      obtain ⟨rfl, he⟩ := Prod.mk.inj h
      cases he
      rw [hunmatched]
      exact ⟨.refl _, rfl⟩
    | ok target =>
      -- a store out of range is not an error of the run
      simp only [jump, JumpMemo.resolve, hl, hs] at h
      split at h
      · cases h
      · rename_i hm
        obtain ⟨_, he⟩ := Prod.mk.inj h
        cases he
        split at hm
        · cases hm
        · split at hm <;> cases hm

variable [ByteOutput σ]

private theorem prompt_cases (x : Execution σ) :
    (∃ z, x.prompt = (z, .ok ()) ∧ z.LooksLike x.toMachine) ∨
    (∃ z e, x.prompt = (z, .error (.error (.stream x.ip e))) ∧ z.LooksLike x.toMachine) := by
  unfold prompt
  rcases ByteOutput.flush x.output with ⟨o, e | _⟩
  · exact .inr ⟨_, e, rfl, x.looksLike_heedOutput o⟩
  · exact .inl ⟨_, rfl, x.looksLike_heedOutput o⟩

/-- An instruction that fails has changed nothing that can be looked at, and the error
names its place. -/
theorem perform_error {i : Instruction} (h : x.perform i = (y, .error (.error e))) :
    y.LooksLike x.toMachine ∧ e.ip? = some x.ip := by
  cases i with
  | right =>
    simp only [perform, moveTo] at h
    split at h <;> cases h
  | left =>
    simp only [perform] at h
    split at h
    · obtain ⟨rfl, he⟩ := Prod.mk.inj h
      cases he
      exact ⟨.refl _, rfl⟩
    · cases h
  | increment => exact absurd h change_ne_error
  | decrement => exact absurd h change_ne_error
  | write =>
    simp only [perform, emit] at h
    split at h
    · obtain ⟨rfl, he⟩ := Prod.mk.inj h
      cases he
      exact ⟨x.looksLike_heedOutput _, rfl⟩
    · cases h
  | read =>
    rcases x.prompt_cases with ⟨z, hz, hlook⟩ | ⟨z, e', hz, hlook⟩
    · simp only [perform, hz] at h
      obtain ⟨hy, he⟩ := accept_error h
      exact ⟨hy.trans hlook, by rw [he, hlook.ip]⟩
    · simp only [perform, hz] at h
      obtain ⟨rfl, he⟩ := Prod.mk.inj h
      cases he
      exact ⟨hlook, rfl⟩
  | loopOpen =>
    simp only [perform] at h
    split at h
    · exact jump_error h
    · cases h
  | loopClose =>
    simp only [perform] at h
    split at h
    · cases h
    · exact jump_error h

section Streams

omit [ByteOutput σ] in
private theorem streams_change (x : Execution σ) (f : UInt8 → UInt8) :
    (x.change f).1.output = x.output ∧ (x.change f).1.input = x.input := by
  unfold change
  split <;> exact ⟨rfl, rfl⟩

omit [ByteOutput σ] in
private theorem streams_jump (x : Execution σ) (d : Direction) :
    (x.jump d).1.output = x.output ∧ (x.jump d).1.input = x.input := by
  unfold jump
  split <;> exact ⟨rfl, rfl⟩

omit [ByteOutput σ] in
theorem streams_accept (x : Execution σ) :
    x.accept.1.output = x.output ∧ x.accept.1.input = x.input.read.1 := by
  unfold accept
  split
  · rename_i input _ hread
    obtain ⟨ho, hi⟩ := streams_change (x.heedInput input) _
    exact ⟨ho, hi.trans (by rw [hread]; rfl)⟩
  · rename_i input hread
    split
    · exact ⟨rfl, by rw [hread]; rfl⟩
    · obtain ⟨ho, hi⟩ := streams_change (x.heedInput input) _
      exact ⟨ho, hi.trans (by rw [hread]; rfl)⟩
    · exact ⟨rfl, by rw [hread]; rfl⟩
  · rename_i hread
    exact ⟨rfl, by rw [hread]; rfl⟩

theorem streams_prompt (x : Execution σ) :
    x.prompt.1.output = (ByteOutput.flush x.output).1 ∧ x.prompt.1.input = x.input := by
  unfold prompt
  rcases ByteOutput.flush x.output with ⟨o, e | _⟩ <;> exact ⟨rfl, rfl⟩

/-- Nothing but a write or a read works on a stream. -/
theorem streams_perform {i : Instruction} (hwrite : i ≠ .write) (hread : i ≠ .read)
    (x : Execution σ) :
    (x.perform i).1.output = x.output ∧ (x.perform i).1.input = x.input := by
  cases i with
  | right =>
    simp only [perform, moveTo]
    split <;> exact ⟨rfl, rfl⟩
  | left =>
    simp only [perform]
    split <;> exact ⟨rfl, rfl⟩
  | increment => exact streams_change x _
  | decrement => exact streams_change x _
  | write => exact absurd rfl hwrite
  | read => exact absurd rfl hread
  | loopOpen =>
    simp only [perform]
    split
    · exact streams_jump x _
    · exact ⟨rfl, rfl⟩
  | loopClose =>
    simp only [perform]
    split
    · exact ⟨rfl, rfl⟩
    · exact streams_jump x _

/-- A read flushes the output, whatever comes of it. -/
theorem output_read (x : Execution σ) :
    (x.perform .read).1.output = (ByteOutput.flush x.output).1 := by
  rw [← (streams_prompt x).1]
  simp only [perform]
  split
  · rename_i y hy
    rw [(streams_accept y).1, hy]
  · rfl

/-- A write puts a byte on the output and leaves the input alone. -/
theorem streams_write (x : Execution σ) :
    (x.perform .write).1.output = (ByteOutput.put x.output x.current).1 ∧
      (x.perform .write).1.input = x.input := by
  simp only [perform, emit]
  rcases ByteOutput.put x.output x.current with ⟨o, e | _⟩ <;> exact ⟨rfl, rfl⟩

end Streams

section Stored
variable (a : ByteOutput.Account σ)

/-- Nothing but a write stores anything. -/
theorem stored_perform {i : Instruction} (h : i ≠ .write) (x : Execution σ) :
    a.stored (x.perform i).1.output = a.stored x.output := by
  by_cases hread : i = .read
  · subst hread
    rw [output_read, a.flush]
  · rw [(streams_perform h hread x).1]

/-- A write stores the current cell unless it fails. -/
theorem stored_write (x : Execution σ) :
    (a.stored (x.perform .write).1.output = a.stored x.output ++ [x.current] ∧
      (x.perform .write).2 = .ok ()) ∨
    (a.stored (x.perform .write).1.output = a.stored x.output ∧
      (x.perform .write).2 ≠ .ok ()) := by
  rcases hp : ByteOutput.put x.output x.current with ⟨o, e | _⟩
  · exact .inr ⟨by simpa [perform, emit, hp, heedOutput, heed] using a.put_error _ _ _ _ hp,
      by simp [perform, emit, hp]⟩
  · exact .inl ⟨by simpa [perform, emit, hp, heedOutput, heed] using a.put_ok _ _ _ hp,
      by simp [perform, emit, hp]⟩

theorem stored_perform_error {i : Instruction} {f : Fault} (h : x.perform i = (y, .error f)) :
    a.stored y.output = a.stored x.output := by
  by_cases hi : i = .write
  · subst hi
    rcases stored_write a x with ⟨_, hok⟩ | ⟨hs, _⟩
    · rw [h] at hok
      cases hok
    · rw [h] at hs
      exact hs
  · have hs := stored_perform a hi x
    rw [h] at hs
    exact hs

private theorem stored_prefix_perform (i : Instruction) (x : Execution σ) :
    a.stored x.output <+: a.stored (x.perform i).1.output := by
  by_cases hi : i = .write
  · subst hi
    rcases stored_write a x with ⟨hs, _⟩ | ⟨hs, _⟩
    · rw [hs]
      exact List.prefix_append _ _
    · simp [hs]
  · simp [stored_perform a hi]

theorem stored_prefix_tick (x : Execution σ) :
    a.stored x.output <+: a.stored x.tick.state.output := by
  rw [← tickBy_perform]
  rcases x.tickBy_cases perform with ⟨_, he⟩ | ⟨_, _, _, he⟩ | ⟨_, _, _, _, he⟩ | ⟨i, _, _, he⟩
  · rw [he]
    exact List.prefix_rfl
  · rw [he]
    exact List.prefix_rfl
  · rw [he]
    exact List.prefix_rfl
  · obtain ⟨t, n, k, hstate⟩ := x.state_executeBy perform i
    rw [he, hstate]
    exact stored_prefix_perform a i x

/-- What is stored stays stored while a run goes on. -/
theorem stored_prefix_ticks (n : Nat) (x : Execution σ) :
    a.stored x.output <+: a.stored (x.ticks n).state.output := by
  induction n generalizing x with
  | zero => exact List.prefix_rfl
  | succ n ih =>
    have htick := stored_prefix_tick a x
    simp only [ticks]
    cases ht : x.tick with
    | running y =>
      rw [ht] at htick
      exact htick.trans (ih y)
    | ended y result =>
      rw [ht] at htick
      exact htick

/-- The last flushes store nothing. -/
theorem stored_conclude (x : Execution σ) (result : Except Fault Unit) :
    a.stored (x.conclude result).1.output = a.stored x.output := by
  have hf := a.flush x.output
  unfold conclude
  split
  · rfl
  · unfold flushTracer
    dsimp only
    split <;> exact hf

end Stored

/-- The last flushes change nothing that can be looked at. -/
theorem looksLike_conclude (x : Execution σ) (result : Except Fault Unit) :
    (x.conclude result).1.LooksLike x.toMachine := by
  obtain ⟨o, t, h⟩ := x.conclude_eq result
  rw [h]
  exact ⟨rfl, rfl, rfl, rfl, rfl⟩

/-- The last flushes change the result of a run only if it had none but success. -/
theorem result_conclude (x : Execution σ) (result : Except Fault Unit) :
    (x.conclude result).2 = result ∨
    result = .ok () ∧ ∃ e, (x.conclude result).2 = .error (.error (.stream x.ip e)) := by
  rcases result with (e | e) | _
  · exact .inl rfl
  · exact .inl rfl
  · rcases ho : ByteOutput.flush x.output with ⟨o, e | _⟩
    · refine .inr ⟨rfl, e, ?_⟩
      cases ht : x.tracer <;> simp [conclude, ho, flushTracer, ht, settle]
    · cases ht : x.tracer with
      | none => simp [conclude, ho, flushTracer, ht, settle]
      | some t =>
        rcases hf : t.flush with ⟨t', e | _⟩
        · exact .inr ⟨rfl, e, by simp [conclude, ho, flushTracer, ht, hf, settle]⟩
        · simp [conclude, ho, flushTracer, ht, hf, settle]

end Execution
end ByteTape
