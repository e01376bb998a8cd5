import ByteTape.Machine
import ByteTape.Proofs.Bracket.Memo

/-! What an instruction leaves alone, where a jump leads, and what one tick can do. -/
namespace ByteTape

def Instruction.direction? : Instruction → Option Direction
  | loopOpen => some .forward
  | loopClose => some .backward
  | _ => none

theorem Instruction.direction?_eq_some_iff {i : Instruction} {d : Direction} :
    i.direction? = some d ↔ i.symbol = d.bracket := by
  cases i <;> cases d <;> decide

namespace Execution
variable {σ : Type}

/-- Whether the test of a bracket asks for its partner. -/
def calls (x : Execution σ) : Direction → Bool
  | .forward => x.current == 0
  | .backward => x.current != 0

/-- What no instruction changes. -/
structure Kept (x y : Execution σ) : Prop where
  program : y.program = x.program
  config : y.config = x.config
  tracer : y.tracer = x.tracer
  steps : y.steps = x.steps

/-- What only a jump changes besides. -/
structure Still (x y : Execution σ) : Prop extends Kept x y where
  ip : y.ip = x.ip
  memo : y.memo = x.memo

protected theorem Still.refl (x : Execution σ) : Still x x := ⟨⟨rfl, rfl, rfl, rfl⟩, rfl, rfl⟩

protected theorem Still.trans {x y z : Execution σ} (h : Still x y) (h' : Still y z) :
    Still x z :=
  ⟨⟨h'.program.trans h.program, h'.config.trans h.config, h'.tracer.trans h.tracer,
    h'.steps.trans h.steps⟩, h'.ip.trans h.ip, h'.memo.trans h.memo⟩

theorem change_of_inside {x : Execution σ} (h : x.pointer < x.tape.size) (f : UInt8 → UInt8) :
    x.change f = ({ x with tape := x.tape.update x.pointer f }, .ok ()) := by
  have hc : x.tape.check x.pointer = .ok () := Tape.check_eq_ok_iff.mpr h.le
  simp [change, hc]

private theorem still_change {x y : Execution σ} (h : Still x y) (f : UInt8 → UInt8) :
    Still x (y.change f).1 := by
  apply h.trans
  unfold change
  split <;> exact ⟨⟨rfl, rfl, rfl, rfl⟩, rfl, rfl⟩

private theorem still_accept (x : Execution σ) : Still x x.accept.1 := by
  unfold accept
  split
  · apply still_change
    exact ⟨⟨rfl, rfl, rfl, rfl⟩, rfl, rfl⟩
  · split
    · exact ⟨⟨rfl, rfl, rfl, rfl⟩, rfl, rfl⟩
    · apply still_change
      exact ⟨⟨rfl, rfl, rfl, rfl⟩, rfl, rfl⟩
    · exact ⟨⟨rfl, rfl, rfl, rfl⟩, rfl, rfl⟩
  · exact ⟨⟨rfl, rfl, rfl, rfl⟩, rfl, rfl⟩

private theorem kept_jump (x : Execution σ) (d : Direction) : Kept x (x.jump d).1 := by
  unfold jump
  split <;> exact ⟨rfl, rfl, rfl, rfl⟩

variable [ByteOutput σ]

private theorem still_prompt (x : Execution σ) : Still x x.prompt.1 := by
  unfold prompt
  split <;> exact ⟨⟨rfl, rfl, rfl, rfl⟩, rfl, rfl⟩

theorem still_perform {i : Instruction} (h : i.direction? = none) (x : Execution σ) :
    Still x (x.perform i).1 := by
  cases i with
  | right =>
    simp only [perform, moveTo]
    split <;> exact ⟨⟨rfl, rfl, rfl, rfl⟩, rfl, rfl⟩
  | left =>
    simp only [perform]
    split <;> exact ⟨⟨rfl, rfl, rfl, rfl⟩, rfl, rfl⟩
  | increment => exact still_change (.refl x) _
  | decrement => exact still_change (.refl x) _
  | write =>
    simp only [perform, emit]
    split <;> exact ⟨⟨rfl, rfl, rfl, rfl⟩, rfl, rfl⟩
  | read =>
    have hp := still_prompt x
    simp only [perform]
    split
    · rename_i y he
      rw [he] at hp
      exact hp.trans (still_accept y)
    · exact hp
  | loopOpen => cases h
  | loopClose => cases h

/-- A bracket jumps when its test calls for that and otherwise does nothing. -/
theorem perform_of_direction {i : Instruction} {d : Direction} (h : i.direction? = some d)
    (x : Execution σ) : x.perform i = if x.calls d then x.jump d else (x, .ok ()) := by
  cases i <;> simp_all [Instruction.direction?] <;> subst h <;> simp [perform, calls]

theorem kept_perform (i : Instruction) (x : Execution σ) : Kept x (x.perform i).1 := by
  cases h : i.direction? with
  | none => exact (still_perform h x).toKept
  | some d =>
    rw [perform_of_direction h]
    split
    · exact kept_jump x d
    · exact (Still.refl x).toKept

/-- Whether a stream asks for the run to be cancelled in a call that the instruction makes. Of the
calls of a read the second one is made if the first has not failed. -/
def rung (i : Instruction) (x : Execution σ) : Bool :=
  match i with
  | .write => ByteOutput.rings (ByteOutput.put x.output x.current).1
  | .read =>
    match ByteOutput.flush x.output with
    | (output, .error _) => ByteOutput.rings output
    | (output, .ok ()) => ByteOutput.rings output || x.input.read.1.rings
  | _ => false

omit [ByteOutput σ] in
private theorem cancel_change (x : Execution σ) (f : UInt8 → UInt8) :
    (x.change f).1.cancel = x.cancel := by
  unfold change
  split <;> rfl

omit [ByteOutput σ] in
private theorem cancel_jump (x : Execution σ) (d : Direction) :
    (x.jump d).1.cancel = x.cancel := by
  unfold jump
  split <;> rfl

omit [ByteOutput σ] in
private theorem cancel_accept (x : Execution σ) :
    x.accept.1.cancel = x.cancel.map (· || x.input.read.1.rings) := by
  unfold accept
  rcases x.input.read with ⟨input, b | _ | e⟩
  · exact cancel_change (x.heedInput input) _
  · dsimp only
    split
    · rfl
    · exact cancel_change (x.heedInput input) _
    · rfl
  · rfl

/-- An attached flag is set by an instruction if a call that this makes asks for it, whether or not
the instruction fails, and by no other. -/
theorem cancel_perform (i : Instruction) (x : Execution σ) :
    (x.perform i).1.cancel = x.cancel.map (· || x.rung i) := by
  have hsame : x.cancel = x.cancel.map (· || false) := by simp
  cases i with
  | right =>
    simp only [perform, moveTo]
    split <;> exact hsame
  | left =>
    simp only [perform]
    split <;> exact hsame
  | increment => exact (cancel_change x _).trans hsame
  | decrement => exact (cancel_change x _).trans hsame
  | write =>
    simp only [perform, emit, rung]
    rcases ByteOutput.put x.output x.current with ⟨o, e | _⟩ <;> rfl
  | read =>
    simp only [perform, prompt, rung]
    rcases ByteOutput.flush x.output with ⟨o, e | _⟩
    · rfl
    · rw [cancel_accept]
      simp [heedOutput, heed, Function.comp_def, Bool.or_assoc]
  | loopOpen =>
    simp only [perform]
    split
    · exact (cancel_jump x _).trans hsame
    · exact hsame
  | loopClose =>
    simp only [perform]
    split
    · exact hsame
    · exact (cancel_jump x _).trans hsame

end Execution

/-- A memo that holds only matches of the program and has room for all of them. -/
structure Machine.Remembers (m : Machine) : Prop where
  sound : m.memo.Sound m.program
  room : m.program.size ≤ m.memo.partner.size

theorem Machine.remembers_new (p : Program) (c : Config) : (Machine.new p c).Remembers :=
  ⟨JumpMemo.sound_empty p p.size, by simp [new, JumpMemo.empty]⟩

namespace Execution
open ByteTape.Bracket
variable {σ : Type} {x : Execution σ} {d : Direction}

/-- A jump lands on the partner and remembers the pair. -/
theorem jump_of_partner {j : Nat} (hr : x.Remembers) (hb : x.program.get? x.ip = some d.bracket)
    (hp : Partner x.program x.ip j) :
    x.jump d = ({ x with memo := x.memo.visit x.ip j, ip := j }, .ok ()) := by
  simp [jump, JumpMemo.resolve_of_partner hr.sound hr.room hb hp]

/-- A jump from a bracket without a partner changes nothing. -/
theorem jump_of_unpaired (hr : x.Remembers) (hb : x.program.get? x.ip = some d.bracket)
    (hp : ∀ j, ¬ Partner x.program x.ip j) :
    x.jump d = (x, .error (.error (.unmatchedBracket x.ip d.side))) := by
  simp [jump, JumpMemo.resolve_of_unpaired hr.sound hb hp]

/-- What a bracket does: it is stepped over, or jumped from, or fails for want of a
partner. -/
theorem bracket_cases [ByteOutput σ] {i : Instruction} (hr : x.Remembers)
    (hi : x.program.get? x.ip = some i.symbol) (hd : i.direction? = some d) :
    (x.calls d = false ∧ x.perform i = (x, .ok ())) ∨
    (x.calls d = true ∧ ∃ j, Partner x.program x.ip j ∧
      x.perform i = ({ x with memo := x.memo.visit x.ip j, ip := j }, .ok ())) ∨
    (x.calls d = true ∧ (∀ j, ¬ Partner x.program x.ip j) ∧
      x.perform i = (x, .error (.error (.unmatchedBracket x.ip d.side)))) := by
  have hb : x.program.get? x.ip = some d.bracket := by
    rw [hi, Instruction.direction?_eq_some_iff.mp hd]
  rw [perform_of_direction hd]
  by_cases hc : x.calls d = true
  · rw [if_pos hc]
    by_cases hp : ∃ j, Partner x.program x.ip j
    · obtain ⟨j, hp⟩ := hp
      exact .inr (.inl ⟨hc, j, hp, jump_of_partner hr hb hp⟩)
    · have hp : ∀ j, ¬ Partner x.program x.ip j := fun j h => hp ⟨j, h⟩
      exact .inr (.inr ⟨hc, hp, jump_of_unpaired hr hb hp⟩)
  · rw [if_neg hc]
    exact .inl ⟨by simpa using hc, rfl⟩

/-- What an instruction does to the memo: a jump taken is remembered, and nothing else
is. -/
theorem memo_perform [ByteOutput σ] {i : Instruction} (hr : x.Remembers)
    (hi : x.program.get? x.ip = some i.symbol) :
    (∃ d j, i.direction? = some d ∧ x.calls d ∧ Partner x.program x.ip j ∧
      x.perform i = ({ x with memo := x.memo.visit x.ip j, ip := j }, .ok ())) ∨
    ((∀ d j, i.direction? = some d → x.calls d → ¬ Partner x.program x.ip j) ∧
      (x.perform i).1.memo = x.memo) := by
  cases hd : i.direction? with
  | none => exact .inr ⟨by simp, (still_perform hd x).memo⟩
  | some d =>
    rcases bracket_cases hr hi hd with ⟨hc, hx⟩ | ⟨hc, j, hp, hx⟩ | ⟨_, hp, hx⟩
    · refine .inr ⟨?_, by rw [hx]⟩
      rintro _ _ h hc'
      obtain rfl := Option.some.inj h
      rw [hc] at hc'
      cases hc'
    · exact .inl ⟨d, j, rfl, hc, hp, hx⟩
    · exact .inr ⟨fun _ j _ _ => hp j, by rw [hx]⟩

end Execution
end ByteTape
