import ByteTape.Proofs.Machine.Jumps
import ByteTape.Proofs.Stream.Unfailing
import ByteTape.Proofs.Structured.Semantics

/-! What statements see of a machine whose output never fails, and that the machine
carries primitives out as a store does. -/
namespace ByteTape
open ByteTape.Bracket

namespace Tape

private theorem toList_reach (t : Tape) (i : Nat) : (t.reach i).cells.toList =
    if i = t.cells.toList.length then t.cells.toList ++ [0] else t.cells.toList := by
  unfold reach
  split <;> simp_all

private theorem toList_update {t : Tape} {i : Nat} (h : i < t.size) (f : UInt8 → UInt8) :
    (t.update i f).cells.toList = t.cells.toList.modify i f := by
  rw [update, reach_of_lt h]
  simp

end Tape

theorem Primitive.direction?_instruction (a : Primitive) : a.instruction.direction? = none := by
  cases a <;> rfl

namespace Execution
variable {σ : Type} {x : Execution σ}

private theorem heed_of_none (h : x.cancel = none) (rings : Bool) : x.heed rings = x := by
  obtain ⟨m, input, output⟩ := x
  obtain ⟨p, c, t, i, j, k, memo, cancel, tracer⟩ := m
  obtain rfl : cancel = none := h
  rfl

private theorem heedInput_of_none (h : x.cancel = none) (input : Source) :
    x.heedInput input = { x with input := input } :=
  heed_of_none (x := { x with input := input }) h _

variable [ByteOutput σ] {u : ByteOutput.Unfailing σ}

private theorem heedOutput_of_none (h : x.cancel = none) (output : σ) :
    x.heedOutput output = { x with output := output } :=
  heed_of_none (x := { x with output := output }) h _

def store (u : ByteOutput.Unfailing σ) (x : Execution σ) : Store where
  cells := x.tape.cells.toList
  pointer := x.pointer
  input := x.input
  written := u.written x.output
  steps := x.steps

/-- Nothing but its program can stop this run, and the pointer stands on a cell. -/
structure Plain (u : ByteOutput.Unfailing σ) (x : Execution σ) : Prop where
  remembers : x.Remembers
  limit : x.config.maxSteps = none
  cancel : x.cancel = none
  tracer : x.tracer = none
  inside : x.pointer < x.tape.size
  output : u.good x.output

theorem current_store (u : ByteOutput.Unfailing σ) (x : Execution σ) :
    (x.store u).current = x.current := by
  simp [store, Store.current, Machine.current, Tape.get, Array.getD_eq_getD_getElem?]

private theorem store_update (h : x.pointer < x.tape.size) (f : UInt8 → UInt8) :
    ({ x with tape := x.tape.update x.pointer f } : Execution σ).store u =
      (x.store u).change f := by
  simp [store, Store.change, Tape.toList_update h]

/-- Primitives change nothing else than these four. -/
private theorem Plain.replace (h : x.Plain u) {t : Tape} {i : Nat} {o : σ} (input : Source)
    (hi : i < t.size) (ho : u.good o) :
    ({ x with tape := t, pointer := i, input := input, output := o } : Execution σ).Plain u :=
  ⟨⟨h.remembers.sound, h.remembers.room⟩, h.limit, h.cancel, h.tracer, hi, ho⟩

structure Agrees (u : ByteOutput.Unfailing σ) (m : Execution σ × Except Fault Unit)
    (t : Store × Except RunError Unit) : Prop where
  store : m.1.store u = t.1
  result : m.2 = t.2.mapError .error
  plain : m.1.Plain u

private theorem agrees_change (h : x.Plain u) (f : UInt8 → UInt8) :
    Agrees u (x.change f) ((x.store u).change f, .ok ()) := by
  rw [change_of_inside h.inside]
  refine ⟨store_update h.inside f, rfl, h.replace x.input ?_ h.output⟩
  rw [Tape.size_update, Tape.reach_of_lt h.inside]
  exact h.inside

private theorem agrees_accept (h : x.Plain u) :
    Agrees u x.accept ((x.store u).accept x.config.eof x.ip) := by
  have hin : ∀ input, ({ x with input := input } : Execution σ).Plain u := fun input =>
    h.replace input h.inside h.output
  have hread : (x.store u).input.read = x.input.read := rfl
  have hheed := heedInput_of_none h.cancel
  rcases hr : x.input.read with ⟨input, b | _ | e⟩
  · simp only [accept, Store.accept, hread, hr, hheed]
    exact agrees_change (hin input) _
  · simp only [accept, Store.accept, hread, hr, hheed]
    cases he : x.config.eof with
    | error => exact ⟨rfl, rfl, hin input⟩
    | zero => exact agrees_change (hin input) _
    | unchanged => exact ⟨rfl, rfl, hin input⟩
  · simp only [accept, Store.accept, hread, hr, hheed]
    exact ⟨rfl, rfl, hin input⟩

/-- The machine carries a primitive out as a store does. -/
theorem agrees_perform (h : x.Plain u) (a : Primitive) :
    Agrees u (x.perform a.instruction) ((x.store u).apply x.config.eof x.ip a) := by
  cases a with
  | right =>
    have hc : x.tape.check (x.pointer + 1) = .ok () := Tape.check_eq_ok_iff.mpr h.inside
    simp only [Primitive.instruction, perform, moveTo, hc, Store.apply]
    refine ⟨?_, rfl, h.replace x.input ?_ h.output⟩
    · simp only [store, Store.moveRight, Tape.toList_reach]
      rfl
    · have := h.inside
      rw [Tape.size_reach]
      split <;> omega
  | left =>
    simp only [Primitive.instruction, perform, Store.apply]
    by_cases hz : x.pointer = 0
    · rw [if_pos hz, if_pos (show (x.store u).pointer = 0 from hz)]
      exact ⟨rfl, rfl, h⟩
    · rw [if_neg hz, if_neg (show ¬ (x.store u).pointer = 0 from hz)]
      refine ⟨rfl, rfl, h.replace x.input ?_ h.output⟩
      have := h.inside
      omega
  | increment => exact agrees_change h _
  | decrement => exact agrees_change h _
  | write =>
    obtain ⟨o, hp, ho, hw⟩ := u.put x.output x.current h.output
    simp only [Primitive.instruction, perform, emit, hp, Store.apply, heedOutput_of_none h.cancel]
    refine ⟨?_, rfl, h.replace x.input h.inside ho⟩
    rw [current_store]
    simp [store, hw]
  | read =>
    obtain ⟨o, hp, ho, hw⟩ := u.flush x.output h.output
    simp only [Primitive.instruction, perform, prompt, hp, Store.apply,
      heedOutput_of_none h.cancel]
    have hs : x.store u = ({ x with output := o } : Execution σ).store u := by
      simp [store, hw]
    rw [hs]
    exact agrees_accept (x := { x with output := o }) (h.replace x.input h.inside ho)

end Execution
end ByteTape
