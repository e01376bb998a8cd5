import ByteTape.Proofs.Machine.Carrying
import ByteTape.Proofs.Stream.Alike

/-! What stands around a run: its step limit, its tracer, its cancel flag and the stream that
it writes to. Instructions see none of these but for the answers of the stream, and only
brackets see the memo; so they do the same in any other surroundings. -/
namespace ByteTape
namespace Execution
variable {σ τ : Type}

/-- The same state under the limit `l` and the tracer `t`, with the memo seen through `k`, the
cancel flag through `f` and the output through `g`. -/
def supervised (l : Option Nat) (t : Option Tracer) (k : JumpMemo → JumpMemo)
    (f : Option Bool → Option Bool) (g : σ → τ) (x : Execution σ) : Execution τ :=
  { x.toMachine with
    config := { x.config with maxSteps := l }
    tracer := t
    memo := k x.memo
    cancel := f x.cancel
    input := x.input
    output := g x.output }

section Perform
variable (l : Option Nat) (t : Option Tracer) (k : JumpMemo → JumpMemo)
  {f : Option Bool → Option Bool} {g : σ → τ}
  (hf : ∀ c b, f (c.map (· || b)) = (f c).map (· || b))

private theorem change_supervised (x : Execution σ) (h : UInt8 → UInt8) :
    (x.supervised l t k f g).change h =
      ((x.change h).1.supervised l t k f g, (x.change h).2) := by
  cases hc : x.tape.check x.pointer <;> simp [change, supervised, hc]

private theorem jump_supervised (x : Execution σ) (d : Direction) :
    (x.supervised l t id f g).jump d =
      ((x.jump d).1.supervised l t id f g, (x.jump d).2) := by
  rcases h : x.memo.resolve x.program x.ip d with ⟨memo, _ | _⟩ <;>
    simp [jump, supervised, h]

include hf

private theorem heedInput_supervised (x : Execution σ) (input : Source) :
    (x.supervised l t k f g).heedInput input = (x.heedInput input).supervised l t k f g := by
  simp [heedInput, heed, supervised, hf]

private theorem accept_supervised (x : Execution σ) :
    (x.supervised l t k f g).accept = (x.accept.1.supervised l t k f g, x.accept.2) := by
  have hread : (x.supervised l t k f g).input.read = x.input.read := rfl
  have heof : (x.supervised l t k f g).config.eof = x.config.eof := rfl
  have hheed := heedInput_supervised l t k (g := g) hf x
  rcases h : x.input.read with ⟨input, b | _ | e⟩
  · simp only [accept, hread, h, hheed]
    exact change_supervised l t k _ _
  · simp only [accept, hread, heof, h, hheed]
    cases x.config.eof with
    | error => rfl
    | zero => exact change_supervised l t k _ _
    | unchanged => rfl
  · simp only [accept, hread, h, hheed]
    rfl

variable [ByteOutput σ] [ByteOutput τ]

private theorem perform_supervised_at {i : Instruction} (hk : i.direction? = none ∨ k = id)
    (x : Execution σ)
    (hput : i = .write → ByteOutput.put (g x.output) x.current =
      (g (ByteOutput.put x.output x.current).1, (ByteOutput.put x.output x.current).2))
    (hflush : i = .read → ByteOutput.flush (g x.output) =
      (g (ByteOutput.flush x.output).1, (ByteOutput.flush x.output).2))
    (hrings : ∀ c o, f (c.map (· || ByteOutput.rings o)) =
      (f c).map (· || ByteOutput.rings (g o))) :
    (x.supervised l t k f g).perform i =
      ((x.perform i).1.supervised l t k f g, (x.perform i).2) := by
  have hheed (o : σ) : (x.supervised l t k f g).heedOutput (g o) =
      (x.heedOutput o).supervised l t k f g := by
    simp [heedOutput, heed, supervised, hrings]
  have hcurrent : (x.supervised l t k f g).current = x.current := rfl
  have houtput : (x.supervised l t k f g).output = g x.output := rfl
  cases i with
  | right => cases h : x.tape.check (x.pointer + 1) <;> simp [perform, moveTo, supervised, h]
  | left => by_cases h : x.pointer = 0 <;> simp [perform, supervised, h]
  | increment => exact change_supervised l t k x _
  | decrement => exact change_supervised l t k x _
  | write =>
    simp only [perform, emit, hcurrent, houtput, hput rfl]
    rcases ByteOutput.put x.output x.current with ⟨o, e | _⟩
    · exact congrArg (·, _) (hheed o)
    · exact congrArg (·, _) (hheed o)
  | read =>
    simp only [perform, prompt, houtput, hflush rfl]
    rcases ByteOutput.flush x.output with ⟨o, e | _⟩
    · exact congrArg (·, _) (hheed o)
    · simp only [hheed]
      exact accept_supervised l t k hf _
  | loopOpen =>
    obtain hd | rfl := hk
    · cases hd
    · simp only [perform, hcurrent]
      split
      · exact jump_supervised l t x _
      · rfl
  | loopClose =>
    obtain hd | rfl := hk
    · cases hd
    · simp only [perform, hcurrent]
      split
      · rfl
      · exact jump_supervised l t x _

end Perform

/-! A limit and a tracer may be made from those of the state, since instructions keep them. -/

section Made
variable [ByteOutput σ] [ByteOutput τ] (l : Option Nat → Option Nat)
  (t : Option Tracer → Option Tracer) (k : JumpMemo → JumpMemo)
  {f : Option Bool → Option Bool} {g : σ → τ}
  (hf : ∀ c b, f (c.map (· || b)) = (f c).map (· || b))
include hf

/-- An instruction does the same in any surroundings in which the output answers it alike and the
flag heeds the output alike, and under any memo if it is no bracket. -/
theorem perform_supervised_of {i : Instruction} (hk : i.direction? = none ∨ k = id)
    (x : Execution σ)
    (hput : i = .write → ByteOutput.put (g x.output) x.current =
      (g (ByteOutput.put x.output x.current).1, (ByteOutput.put x.output x.current).2))
    (hflush : i = .read → ByteOutput.flush (g x.output) =
      (g (ByteOutput.flush x.output).1, (ByteOutput.flush x.output).2))
    (hrings : ∀ c o, f (c.map (· || ByteOutput.rings o)) =
      (f c).map (· || ByteOutput.rings (g o))) :
    (x.supervised (l x.config.maxSteps) (t x.tracer) k f g).perform i =
      ((x.perform i).1.supervised (l (x.perform i).1.config.maxSteps) (t (x.perform i).1.tracer) k
        f g, (x.perform i).2) := by
  have hkept := kept_perform i x
  rw [hkept.config, hkept.tracer]
  exact perform_supervised_at _ _ k hf hk x hput hflush hrings

/-- An instruction does the same in any surroundings, and under any memo if it is no
bracket. -/
theorem perform_supervised (hg : ByteOutput.Honest g) {i : Instruction}
    (hk : i.direction? = none ∨ k = id) (x : Execution σ) :
    (x.supervised (l x.config.maxSteps) (t x.tracer) k f g).perform i =
      ((x.perform i).1.supervised (l (x.perform i).1.config.maxSteps) (t (x.perform i).1.tracer) k
        f g, (x.perform i).2) :=
  perform_supervised_of l t k hf hk x (fun _ => hg.put _ _) (fun _ => hg.flush _)
    fun c o => by rw [hg.rings, hf]

end Made

def tracedBy (g : Option Tracer → Option Tracer) (x : Execution σ) : Execution σ :=
  { x with tracer := g x.tracer }

theorem framed_tracedBy (g : Option Tracer → Option Tracer) : Framed (tracedBy (σ := σ) g) :=
  ⟨fun _ => rfl, fun _ => rfl, fun _ _ _ => rfl, fun _ => rfl, fun _ => rfl⟩

theorem signal_tracedBy (g : Option Tracer → Option Tracer) (x : Execution σ) (w : Option Bool) :
    (x.tracedBy g).signal w = (x.signal w).tracedBy g := by
  cases w <;> rfl

/-- No instruction sees the tracer. -/
theorem perform_tracedBy [ByteOutput σ] (g : Option Tracer → Option Tracer) (i : Instruction)
    (x : Execution σ) :
    (x.tracedBy g).perform i = ((x.perform i).1.tracedBy g, (x.perform i).2) :=
  perform_supervised id g id (f := id) (fun _ _ => rfl) ByteOutput.honest_id (.inr rfl) x

end Execution
end ByteTape
