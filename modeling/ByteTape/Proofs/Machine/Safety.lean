import ByteTape.Proofs.Machine.Failure
import ByteTape.Proofs.Machine.Jumps

/-! A machine stays in bounds. Through every history the pointer stands on a cell, `ip` on
the program or at its end, and the memo knows positions of the program only, so that no
store is ever out of range. -/
namespace ByteTape
open ByteTape.Bracket

namespace Machine

structure Inside (p : Program) (m : Machine) : Prop where
  program : m.program = p
  pointer : m.pointer < m.tape.size
  ip : m.ip ≤ p.size
  slots : m.memo.partner.size = p.size
  recorded : ∀ i j, m.memo.lookup? i = some j → j < p.size

/-- The current cell is one of the tape, not the zero that a read beyond it would give. -/
private theorem Inside.current {p : Program} {m : Machine} (h : m.Inside p) :
    m.tape.cells[m.pointer]? = some m.current := by
  have hp : m.pointer < m.tape.cells.size := h.pointer
  simp [Machine.current, Tape.get, hp]

private theorem recorded_of_sound {p : Program} {k : JumpMemo} (h : k.Sound p) (i j : Nat)
    (hl : k.lookup? i = some j) : j < p.size := (h i j hl).symm.lt_size

theorem inside_new (p : Program) (c : Config) : (Machine.new p c).Inside p where
  program := rfl
  pointer := Nat.one_pos
  ip := Nat.zero_le _
  slots := by simp [new, JumpMemo.empty]
  recorded := recorded_of_sound (remembers_new p c).sound

end Machine

namespace Execution
variable {σ : Type}

/-- What an instruction may make of a tape: the pointer comes to stand on a cell, at most
one cell is added and none when the instruction fails, and no store is out of range. -/
structure Roomy (t : Tape) (m : Execution σ × Except Fault Unit) : Prop where
  pointer : m.1.pointer < m.1.tape.size
  growth : m.1.tape.size ≤ t.size + 1
  failed : ∀ e, m.2 = .error e → m.1.tape.size = t.size
  inRange : ∀ e, m.2 ≠ .error (.outOfRange e)

variable {x : Execution σ} {p : Program}

private theorem roomy_of_same {r : Except RunError Unit} (h : x.pointer < x.tape.size) :
    Roomy x.tape (x, r.mapError .error) where
  pointer := h
  growth := Nat.le_succ _
  failed _ _ := rfl
  inRange e he := by cases r <;> cases he

private theorem roomy_change (h : x.pointer < x.tape.size) (f : UInt8 → UInt8) :
    Roomy x.tape (x.change f) := by
  have hsize : (x.tape.update x.pointer f).size = x.tape.size := by
    rw [Tape.size_update, Tape.reach_of_lt h]
  rw [change_of_inside h]
  exact ⟨hsize ▸ h, by simp only [hsize]; omega, fun _ _ => hsize, fun e => by simp⟩

private theorem roomy_accept (h : x.pointer < x.tape.size) : Roomy x.tape x.accept := by
  unfold accept
  split
  · rename_i input b _
    exact roomy_change (x := x.heedInput input) h _
  · rename_i input _
    split
    · exact roomy_of_same (x := x.heedInput input) (r := .error _) h
    · exact roomy_change (x := x.heedInput input) h _
    · exact roomy_of_same (x := x.heedInput input) (r := .ok ()) h
  · rename_i input e _
    exact roomy_of_same (x := x.heedInput input) (r := .error (.stream x.ip e)) h

variable [ByteOutput σ]

private theorem roomy_prompt (h : x.pointer < x.tape.size) :
    Roomy x.tape x.prompt ∧ x.prompt.1.tape = x.tape := by
  unfold prompt
  rcases ByteOutput.flush x.output with ⟨o, e | _⟩
  · exact ⟨roomy_of_same (x := x.heedOutput o) (r := .error (.stream x.ip e)) h, rfl⟩
  · exact ⟨roomy_of_same (x := x.heedOutput o) (r := .ok ()) h, rfl⟩

theorem roomy_perform {i : Instruction} (hr : x.Remembers) (h : x.pointer < x.tape.size)
    (hi : x.program.get? x.ip = some i.symbol) : Roomy x.tape (x.perform i) := by
  cases hd : i.direction? with
  | some d =>
    rcases bracket_cases hr hi hd with ⟨_, hx⟩ | ⟨_, j, _, hx⟩ | ⟨_, _, hx⟩
    · rw [hx]
      exact roomy_of_same (r := .ok ()) h
    · rw [hx]
      exact roomy_of_same (x := { x with memo := x.memo.visit x.ip j, ip := j }) (r := .ok ()) h
    · rw [hx]
      exact roomy_of_same (r := .error _) h
  | none =>
    cases i with
    | right =>
      have hc : x.tape.check (x.pointer + 1) = .ok () := Tape.check_eq_ok_iff.mpr h
      have hsize := x.tape.size_reach (x.pointer + 1)
      simp only [perform, moveTo, hc]
      refine ⟨?_, ?_, by simp, by simp⟩
      · show x.pointer + 1 < (x.tape.reach (x.pointer + 1)).size
        split at hsize <;> omega
      · show (x.tape.reach (x.pointer + 1)).size ≤ x.tape.size + 1
        split at hsize <;> omega
    | left =>
      simp only [perform]
      split
      · exact roomy_of_same (r := .error _) h
      · exact roomy_of_same (x := { x with pointer := x.pointer - 1 }) (r := .ok ())
          ((Nat.sub_le _ _).trans_lt h)
    | increment => exact roomy_change h _
    | decrement => exact roomy_change h _
    | write =>
      simp only [perform, emit]
      rcases ByteOutput.put x.output x.current with ⟨o, e | _⟩
      · exact roomy_of_same (x := x.heedOutput o) (r := .error (.stream x.ip e)) h
      · exact roomy_of_same (x := x.heedOutput o) (r := .ok ()) h
    | read =>
      obtain ⟨hroom, htape⟩ := roomy_prompt h
      simp only [perform]
      split
      · rename_i y hy
        rw [hy] at hroom htape
        rw [← htape]
        exact roomy_accept hroom.pointer
      · exact hroom
    | loopOpen => cases hd
    | loopClose => cases hd

/-- An instruction keeps a machine in bounds, and `ip` on the program. -/
theorem inside_perform {i : Instruction} (hr : x.Remembers) (h : x.Inside p)
    (hi : x.program.get? x.ip = some i.symbol) :
    (x.perform i).1.Inside p ∧ (x.perform i).1.ip < p.size := by
  have hroom := roomy_perform hr h.pointer hi
  have hip : x.ip < p.size := h.program ▸ Program.lt_size_of_get? hi
  have hstay (hplace : (x.perform i).1.ip = x.ip) (hmemo : (x.perform i).1.memo = x.memo) :
      (x.perform i).1.Inside p ∧ (x.perform i).1.ip < p.size := by
    refine ⟨⟨?_, hroom.pointer, ?_, ?_, ?_⟩, ?_⟩
    · exact (kept_perform i x).program.trans h.program
    · rw [hplace]
      exact hip.le
    · rw [hmemo]
      exact h.slots
    · rw [hmemo]
      exact h.recorded
    · rw [hplace]
      exact hip
  cases hd : i.direction? with
  | none => exact hstay (still_perform hd x).ip (still_perform hd x).memo
  | some d =>
    rcases bracket_cases hr hi hd with ⟨_, hx⟩ | ⟨_, j, hpart, hx⟩ | ⟨_, _, hx⟩
    · exact hstay (by rw [hx]) (by rw [hx])
    · have hsound := hr.sound
      rw [h.program] at hpart hsound
      have hj := hpart.symm.lt_size
      rw [hx]
      refine ⟨⟨h.program, h.pointer, hj.le, ?_, ?_⟩, hj⟩
      · rw [JumpMemo.size_visit]
        exact h.slots
      · exact Machine.recorded_of_sound (hsound.visit h.slots.ge hpart)
    · exact hstay (by rw [hx]) (by rw [hx])

omit [ByteOutput σ] in
private theorem inside_of_counted (h : x.Inside p) (t : Option Tracer) {n k : Nat}
    (hk : k ≤ p.size) :
    ({ x with tracer := t, steps := n, ip := k } : Execution σ).Inside p :=
  ⟨h.program, h.pointer, hk, h.slots, h.recorded⟩

/-- An instruction that was counted has added at most one cell. -/
theorem inside_of_running {y : Execution σ} (hr : x.Remembers) (h : x.Inside p)
    (ht : x.tick = .running y) :
    y.Inside p ∧ y.tape.size + x.steps ≤ x.tape.size + y.steps := by
  rcases running_cases ht with ⟨c, hc, _, rfl⟩ | ⟨i, z, t, hc, _, hp, _, rfl⟩
  · have hip := Program.lt_size_of_get? hc
    rw [h.program] at hip
    exact ⟨inside_of_counted h x.tracer hip, le_rfl⟩
  · have hroom := roomy_perform hr h.pointer hc
    have hin := inside_perform hr h hc
    have hsteps := (kept_perform i x).steps
    rw [hp] at hroom hin hsteps
    refine ⟨inside_of_counted hin.1 t hin.2, ?_⟩
    have := hroom.growth
    simp only at hsteps this ⊢
    omega

/-- How a run ends: never by a store out of range, and with a cell that no count accounts
for only if a row could not be written. -/
theorem inside_of_ended {y : Execution σ} {result : Except Fault Unit} (hr : x.Remembers)
    (h : x.Inside p) (ht : x.tick = .ended y result) :
    y.Inside p ∧ (∀ e, result ≠ .error (.outOfRange e)) ∧ (result = .ok () → y.ip = p.size) ∧
    (y.tape.size + x.steps ≤ x.tape.size + y.steps ∨
      x.unrecorded = true ∧ y.tape.size + x.steps ≤ x.tape.size + y.steps + 1) := by
  rcases ended_cases ht with ⟨hc, rfl, rfl⟩ | ⟨_, _, _, _, rfl, rfl⟩ | ⟨i, e, hc, _, hp, rfl⟩ |
    ⟨i, z, t, e, hc, hv, hp, hrec, rfl, rfl⟩
  · have hend := Program.get?_eq_none_iff.mp hc
    rw [h.program] at hend
    exact ⟨h, by simp, fun _ => le_antisymm h.ip hend, .inl le_rfl⟩
  · exact ⟨h, by simp, by simp, .inl le_rfl⟩
  · have hroom := roomy_perform hr h.pointer hc
    have hin := inside_perform hr h hc
    have hsteps := (kept_perform i x).steps
    rw [hp] at hroom hin hsteps
    refine ⟨hin.1, hroom.inRange, by simp, .inl ?_⟩
    have := hroom.failed e rfl
    simp only at hsteps this
    omega
  · have hroom := roomy_perform hr h.pointer hc
    have hin := inside_perform hr h hc
    have hsteps := (kept_perform i x).steps
    rw [hp] at hroom hin hsteps
    obtain ⟨_, _, _, _, rfl⟩ := record_error hrec
    refine ⟨inside_of_counted hin.1 t hin.1.ip, by simp, by simp,
      .inr ⟨unrecorded_of_record_error hc hv hp hrec, ?_⟩⟩
    have := hroom.growth
    simp only at hsteps this ⊢
    omega

/-- A machine in bounds at a moment of a run, with no more cells than it has counted
instructions and one. -/
structure Bounded (p : Program) (x : Execution σ) : Prop where
  remembers : x.Remembers
  inside : x.Inside p
  size : x.tape.size ≤ x.steps + 1

theorem steady_bounded (p : Program) : Steady (σ := σ) perform (Bounded p) where
  signal x w h := by
    cases w with
    | none => exact h
    | some value =>
      exact ⟨⟨h.remembers.sound, h.remembers.room⟩, ⟨h.inside.program, h.inside.pointer,
        h.inside.ip, h.inside.slots, h.inside.recorded⟩, h.size⟩
  tick x y h ht := by
    have hremembers :=
      (steady_of_lasting Machine.lasting_remembers).tick x y h.remembers ht
    obtain ⟨hin, hgrowth⟩ := inside_of_running h.remembers h.inside ht
    have := h.size
    exact ⟨hremembers, hin, by omega⟩

/-- The result of a run from within bounds is its own, and success means that it has come to the
end of the program. -/
theorem ended_of_bounded {y : Execution σ} {ws : List (Option Bool)} {result : Except Fault Unit}
    (h : x.Bounded p) (hd : x.drive perform ws = .ended y result) :
    ∃ own : Except RunError Unit, result = own.mapError .error ∧ (own = .ok () → y.ip = p.size) := by
  obtain ⟨z, hz, hend⟩ := exists_last_of_ended hd
  have hb := (steady_bounded p).trail h ws z (List.mem_of_getLast? hz)
  obtain ⟨_, hrange, hok, _⟩ := inside_of_ended hb.remembers hb.inside hend
  rcases result with (e | e) | _
  · exact ⟨.error e, rfl, by simp⟩
  · exact absurd rfl (hrange e)
  · exact ⟨.ok (), rfl, fun _ => hok rfl⟩

end Execution

namespace Machine
variable {σ : Type} [ByteOutput σ]

theorem lasting_inside (p : Program) :
    Lasting σ fun m => m.Remembers ∧ m.Inside p where
  cancel _ _ h := ⟨⟨h.1.sound, h.1.room⟩, ⟨h.2.program, h.2.pointer, h.2.ip, h.2.slots, h.2.recorded⟩⟩
  tracer _ _ h := ⟨⟨h.1.sound, h.1.room⟩, ⟨h.2.program, h.2.pointer, h.2.ip, h.2.slots, h.2.recorded⟩⟩
  rewind _ h := ⟨⟨h.1.sound, h.1.room⟩,
    ⟨h.2.program, Nat.one_pos, Nat.zero_le _, h.2.slots, h.2.recorded⟩⟩
  tick x h := by
    refine ⟨Execution.remembers_tick h.1, ?_⟩
    cases ht : x.tick with
    | running y => exact (Execution.inside_of_running h.1 h.2 ht).1
    | ended y result => exact (Execution.inside_of_ended h.1 h.2 ht).1

theorem bounded_start {p : Program} {m : Machine} (h : m.Remembers ∧ m.Inside p)
    (input : Source) (output : σ) : (m.start input output).Bounded p :=
  ⟨⟨h.1.sound, h.1.room⟩, ((lasting_inside (σ := σ) p).rewind m h).2, le_rfl⟩

/-- How a run from within bounds ends: by no store out of range, at the end of the program if
it ends well, and with one cell more than its count allows only if a row could not be
written. -/
private theorem bounds_of_ended {p : Program} {m : Machine} {input : Source} {output : σ}
    {ws : List (Option Bool)} {x : Execution σ} {result : Except Fault Unit}
    (hm : (m.start input output).Bounded p)
    (hr : m.runBy Execution.perform ws input output = .ended x result) :
    (∀ e, result ≠ .error (.outOfRange e)) ∧ (result = .ok () → x.ip = p.size) ∧
    (x.tape.size ≤ x.steps + 1 ∨ x.tape.size ≤ x.steps + 2 ∧
      ∃ z, ((m.start input output).trail Execution.perform ws).getLast? = some z ∧
        z.unrecorded = true) := by
  obtain ⟨y, result', hd, hx⟩ := runBy_eq_ended_iff.mp hr
  obtain rfl : (y.conclude result').1 = x := congrArg Prod.fst hx
  obtain rfl : (y.conclude result').2 = result := congrArg Prod.snd hx
  obtain ⟨z, hz, hend⟩ := Execution.exists_last_of_ended hd
  have hb := (Execution.steady_bounded p).trail hm ws z (List.mem_of_getLast? hz)
  obtain ⟨_, hrange, hok, hsize⟩ := Execution.inside_of_ended hb.remembers hb.inside hend
  have hlook := y.looksLike_conclude result'
  refine ⟨?_, ?_, ?_⟩
  · rcases y.result_conclude result' with he | ⟨_, e, he⟩
    · rw [he]
      exact hrange
    · rw [he]
      simp
  · rcases y.result_conclude result' with he | ⟨_, e, he⟩
    · rw [he, hlook.ip]
      exact hok
    · rw [he]
      simp
  · have := hb.size
    rw [hlook.tape, hlook.steps]
    rcases hsize with hsize | ⟨hz', hsize⟩
    · exact .inl (by omega)
    · exact .inr ⟨by omega, z, hz, hz'⟩

/-- Through every history, at each moment of a run and after it, a machine is in bounds.
What it reads is always a cell of its tape, no store is out of range, a run that ends well
has come to the end of the program, and the tape has no more cells than instructions were
counted and one, or one more still if the last of them could not be recorded. -/
theorem inside_throughout (p : Program) (c : Config) (es : List (Event σ))
    (ws : List (Option Bool)) (input : Source) (output : σ) :
    let m := (Machine.new p c).after es
    let moments := (m.start input output).trail Execution.perform ws
    let r := m.runBy Execution.perform ws input output
    m.Inside p ∧
    (∀ x ∈ moments, x.Inside p ∧ x.tape.cells[x.pointer]? = some x.current ∧
      ∀ (i : Instruction) y result, x.program.get? x.ip = some i.symbol →
        x.perform i = (y, result) →
        y.Inside p ∧ y.tape.cells[y.pointer]? = some y.current ∧
          ∀ e, result ≠ .error (.outOfRange e)) ∧
    r.state.Inside p ∧
    (∀ x result, r = .ended x result →
      (∀ e, result ≠ .error (.outOfRange e)) ∧
      (result = .ok () → x.ip = p.size) ∧
      (x.tape.size ≤ x.steps + 1 ∨
        x.tape.size ≤ x.steps + 2 ∧ ∃ z, moments.getLast? = some z ∧ z.unrecorded = true)) := by
  intro m moments r
  have hm : m.Remembers ∧ m.Inside p :=
    (lasting_inside p).after ⟨remembers_new p c, inside_new p c⟩ es
  have hstart : (m.start input output).Bounded p :=
    ⟨⟨hm.1.sound, hm.1.room⟩, ((lasting_inside (σ := σ) p).rewind m hm).2, le_rfl⟩
  have hmoments : ∀ x ∈ moments, x.Bounded p := (Execution.steady_bounded p).trail hstart ws
  refine ⟨hm.2, ?_, ((lasting_inside p).runBy hm ws input output).2,
    fun x result hr => bounds_of_ended hstart hr⟩
  intro x hx
  have hb := hmoments x hx
  refine ⟨hb.inside, hb.inside.current, ?_⟩
  intro i y result hi hp
  have hin := (Execution.inside_perform hb.remembers hb.inside hi).1
  have hroom := Execution.roomy_perform hb.remembers hb.inside.pointer hi
  rw [hp] at hin hroom
  exact ⟨hin, hin.current, hroom.inRange⟩

end Machine
end ByteTape
