import ByteTape.Proofs.Machine.Supervision
import ByteTape.Proofs.Machine.Table

/-! Runs without their table. A tracer that never fails gains a table and changes nothing else, in
any history. -/
namespace ByteTape
namespace Execution
variable {σ : Type} {x : Execution σ}

def untraced (x : Execution σ) : Execution σ := { x with tracer := none }

variable [ByteOutput σ]

theorem perform_untraced (i : Instruction) (x : Execution σ) :
    x.untraced.perform i = ((x.perform i).1.untraced, (x.perform i).2) :=
  perform_tracedBy (fun _ => none) i x

theorem conclude_untraced (h : x.Quiet) (result : Except Fault Unit) :
    x.untraced.conclude result = ((x.conclude result).1.untraced, (x.conclude result).2) := by
  let y : Execution σ := { x with output := (ByteOutput.flush x.output).1 }
  obtain ⟨t, hf, _⟩ := flushTracer_of_quiet (x := y) h
  rcases result with (e | e) | _
  · show _ = (y.flushTracer.1.untraced, _)
    rw [hf]
    rfl
  · rfl
  · show _ = (y.flushTracer.1.untraced, settle y.flushTracer.1.ip _ _ y.flushTracer.2)
    rw [hf]
    rfl

end Execution

namespace Machine
open Execution
variable {σ : Type} [ByteOutput σ] {m : Machine}

def untraced (m : Machine) : Machine := { m with tracer := none }

def KeepsTracer (es : List (Event σ)) : Prop := ∀ e ∈ es, ∀ t, e ≠ .tracer t

end Machine
end ByteTape
