import ByteTape.Run
import ByteTape.Proofs.Machine.Step

/-! Instructions at another place of another program. Only brackets see the program and the
memo, and all that the others tell of their place is the number in their errors. -/
namespace ByteTape

def RunError.renumber (f : Nat → Nat) : RunError → RunError
  | unmatchedBracket ip side => unmatchedBracket (f ip) side
  | pointerUnderflow ip => pointerUnderflow (f ip)
  | inputExhausted ip => inputExhausted (f ip)
  | stream ip source => stream (f ip) source
  | stepLimitExceeded limit => stepLimitExceeded limit
  | interrupted => interrupted

/-- An error that tells no place is the same at every place. -/
theorem RunError.renumber_of_ip? {e : RunError} (h : e.ip? = none) (f : Nat → Nat) :
    e.renumber f = e := by
  cases e with
  | stepLimitExceeded limit => rfl
  | interrupted => rfl
  | _ => cases h

def Fault.renumber (f : Nat → Nat) : Fault → Fault
  | error e => error (e.renumber f)
  | outOfRange e => outOfRange e

namespace Execution
variable {σ : Type} {x : Execution σ} {f : Nat → Nat}

def relocated (p : Program) (ip : Nat) (memo : JumpMemo) (x : Execution σ) : Execution σ :=
  { x with program := p, ip := ip, memo := memo }

section Perform
variable (p : Program) (memo : JumpMemo)

private theorem change_relocated (ip : Nat) (x : Execution σ) (h : UInt8 → UInt8) :
    (x.relocated p ip memo).change h =
      ((x.change h).1.relocated p ip memo, (x.change h).2.mapError (·.renumber f)) := by
  cases hc : x.tape.check x.pointer <;>
    simp [change, relocated, hc, Except.mapError, Fault.renumber]

private theorem accept_relocated (x : Execution σ) :
    (x.relocated p (f x.ip) memo).accept =
      (x.accept.1.relocated p (f x.ip) memo, x.accept.2.mapError (·.renumber f)) := by
  have hread : (x.relocated p (f x.ip) memo).input.read = x.input.read := rfl
  have heof : (x.relocated p (f x.ip) memo).config.eof = x.config.eof := rfl
  rcases h : x.input.read with ⟨input, b | _ | e⟩
  · simp only [accept, hread, h]
    exact change_relocated p memo _ (x.heedInput input) _
  · simp only [accept, hread, heof, h]
    cases he : x.config.eof with
    | error => rfl
    | zero => exact change_relocated p memo _ (x.heedInput input) _
    | unchanged => rfl
  · simp only [accept, hread, h]
    rfl

/-- An instruction that is no bracket does the same at another place. -/
theorem perform_relocated [ByteOutput σ] {i : Instruction} (hd : i.direction? = none)
    (x : Execution σ) :
    (x.relocated p (f x.ip) memo).perform i =
      ((x.perform i).1.relocated p (f x.ip) memo,
        (x.perform i).2.mapError (·.renumber f)) := by
  have hcurrent : (x.relocated p (f x.ip) memo).current = x.current := rfl
  have houtput : (x.relocated p (f x.ip) memo).output = x.output := rfl
  cases i with
  | right =>
    cases h : x.tape.check (x.pointer + 1) <;>
      simp [perform, moveTo, relocated, h, Except.mapError, Fault.renumber]
  | left =>
    by_cases h : x.pointer = 0 <;>
      simp [perform, relocated, h, Except.mapError, Fault.renumber, RunError.renumber]
  | increment => exact change_relocated p memo _ x _
  | decrement => exact change_relocated p memo _ x _
  | write =>
    simp only [perform, emit, hcurrent, houtput]
    rcases ByteOutput.put x.output x.current with ⟨o, e | _⟩
    · rfl
    · rfl
  | read =>
    simp only [perform, prompt, houtput]
    rcases ByteOutput.flush x.output with ⟨o, e | _⟩
    · rfl
    · exact accept_relocated p memo (x.heedOutput o)
  | loopOpen => cases hd
  | loopClose => cases hd

/-- The last flushes do the same at another place, if no table tells of the place. -/
theorem conclude_relocated [ByteOutput σ] (ht : x.tracer = none) (result : Except Fault Unit) :
    (x.relocated p (f x.ip) memo).conclude (result.mapError (·.renumber f)) =
      ((x.conclude result).1.relocated p (f x.ip) memo,
        (x.conclude result).2.mapError (·.renumber f)) := by
  obtain ⟨⟨_, _, _, _, _, _, _, _, tracer⟩, input, output⟩ := x
  obtain rfl : tracer = none := ht
  rcases result with (e | e) | _
  · rfl
  · rfl
  · rcases ho : ByteOutput.flush output with ⟨o, e | _⟩ <;>
      simp [conclude, relocated, flushTracer, settle, ho, Except.mapError, Fault.renumber,
        RunError.renumber]

end Perform

end Execution
end ByteTape
