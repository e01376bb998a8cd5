import ByteTape.Run
import ByteTape.Proofs.Machine.Step

/-! Histories of one machine: runs in any number, each on its own streams, with tracers
attached between them and a cancel flag that may be set or cleared from outside before
any tick. The machine is taken with any way of carrying instructions out. -/
namespace ByteTape

abbrev Performer (σ : Type) := Instruction → Execution σ → Execution σ × Except Fault Unit

namespace Execution
variable {σ : Type}

def executeBy (act : Performer σ) (i : Instruction) (x : Execution σ) : Progress σ :=
  match act i x with
  | (y, .error e) => .ended y (.error e)
  | (y, .ok ()) =>
    match y.record i x.snapshot with
    | (z, .error e) => .ended z (.error e)
    | (z, .ok ()) => .running { z with steps := z.steps + 1, ip := z.ip + 1 }

def tickBy (act : Performer σ) (x : Execution σ) : Progress σ :=
  match x.program.get? x.ip with
  | none => .ended x (.ok ())
  | some c =>
    match Instruction.ofChar? c with
    | none => .running { x with ip := x.ip + 1 }
    | some i =>
      match x.veto with
      | some e => .ended x (.error (.error e))
      | none => x.executeBy act i

/-- Something outside may store a value in the cancel flag, if one is attached. -/
def signal (x : Execution σ) : Option Bool → Execution σ
  | none => x
  | some value => { x with cancel := x.cancel.map fun _ => value }

/-- One tick for each entry of the schedule, which says what is stored in the cancel
flag just before the tick. -/
def drive (act : Performer σ) : List (Option Bool) → Execution σ → Progress σ
  | [], x => .running x
  | w :: ws, x =>
    match (x.signal w).tickBy act with
    | .running y => drive act ws y
    | .ended y result => .ended y result

def trail (act : Performer σ) : List (Option Bool) → Execution σ → List (Execution σ)
  | [], _ => []
  | w :: ws, x =>
    x.signal w ::
      match (x.signal w).tickBy act with
      | .running y => trail act ws y
      | .ended _ _ => []

end Execution

def Progress.state {σ : Type} : Progress σ → Execution σ
  | .running x | .ended x _ => x

def Progress.result? {σ : Type} : Progress σ → Option (Except Fault Unit)
  | .running _ => none
  | .ended _ result => some result

theorem Progress.eq_ended_of_result? {σ : Type} {r : Progress σ} {result : Except Fault Unit}
    (h : r.result? = some result) : r = .ended r.state result := by
  cases r with
  | running x => cases h
  | ended x result' =>
    obtain rfl := Option.some.inj h
    rfl

/-- What happens to a machine. Outputs of different kinds in one history make a sum type. -/
inductive Event (σ : Type) where
  /-- A cancel flag is attached, or the attached one is given this value. -/
  | flag (value : Bool)
  | tracer (t : Tracer)
  /-- A run, with the values stored in the cancel flag while it goes on. -/
  | run (schedule : List (Option Bool)) (input : Source) (output : σ)

namespace Machine
variable {σ : Type} [ByteOutput σ]

/-- A run under a schedule. One that ends is concluded by the last flushes. -/
def runBy (act : Performer σ) (m : Machine) (schedule : List (Option Bool)) (input : Source)
    (output : σ) : Progress σ :=
  match (m.start input output).drive act schedule with
  | .running x => .running x
  | .ended x result => .ended (x.conclude result).1 (x.conclude result).2

/-- What each run of a history comes to. A run that has not ended is the last one. -/
def reports (act : Performer σ) : List (Event σ) → Machine → List (Progress σ)
  | [], _ => []
  | .flag value :: es, m => reports act es { m with cancel := some value }
  | .tracer t :: es, m => reports act es { m with tracer := some t }
  | .run schedule input output :: es, m =>
    match m.runBy act schedule input output with
    | .running x => [.running x]
    | .ended x result => .ended x result :: reports act es x.toMachine

def after : List (Event σ) → Machine → Machine
  | [], m => m
  | .flag value :: es, m => after es { m with cancel := some value }
  | .tracer t :: es, m => after es { m with tracer := some t }
  | .run schedule input output :: es, m =>
    match m.runBy Execution.perform schedule input output with
    | .running x => x.toMachine
    | .ended x _ => after es x.toMachine

def moments : List (Event σ) → Machine → List (Execution σ)
  | [], _ => []
  | .flag value :: es, m => moments es { m with cancel := some value }
  | .tracer t :: es, m => moments es { m with tracer := some t }
  | .run schedule input output :: es, m =>
    (m.start input output).trail Execution.perform schedule ++
      match m.runBy Execution.perform schedule input output with
      | .running _ => []
      | .ended x _ => moments es x.toMachine

end Machine

namespace Execution
variable {σ : Type}

theorem tickBy_perform [ByteOutput σ] (x : Execution σ) : x.tickBy perform = x.tick := rfl

/-- Without outside stores a schedule is nothing but its length. -/
theorem drive_replicate [ByteOutput σ] (n : Nat) (x : Execution σ) :
    x.drive perform (List.replicate n none) = x.ticks n := by
  induction n generalizing x with
  | zero => rfl
  | succ n ih =>
    simp only [List.replicate_succ, drive, signal, tickBy_perform, ticks]
    cases x.tick with
    | running y => exact ih y
    | ended y result => rfl

/-- Writing a row touches nothing but the tracer. -/
theorem record_eq (i : Instruction) (before : Snapshot) (x : Execution σ) :
    ∃ t, (x.record i before).1 = { x with tracer := t } := by
  unfold record
  split
  · exact ⟨x.tracer, rfl⟩
  · split
    · exact ⟨_, rfl⟩
    · exact ⟨_, rfl⟩

/-- An instruction fails, or it is performed and its row fails, or it is counted. -/
theorem executeBy_cases (act : Performer σ) (i : Instruction) (x : Execution σ) :
    (∃ y e, act i x = (y, .error e) ∧ x.executeBy act i = .ended y (.error e)) ∨
    (∃ y t e, act i x = (y, .ok ()) ∧
      y.record i x.snapshot = ({ y with tracer := t }, .error e) ∧
      x.executeBy act i = .ended { y with tracer := t } (.error e)) ∨
    (∃ y t, act i x = (y, .ok ()) ∧
      y.record i x.snapshot = ({ y with tracer := t }, .ok ()) ∧
      x.executeBy act i =
        .running { y with tracer := t, steps := y.steps + 1, ip := y.ip + 1 }) := by
  unfold executeBy
  rcases act i x with ⟨y, e | _⟩
  · exact .inl ⟨y, e, rfl, rfl⟩
  · obtain ⟨t, ht⟩ := record_eq i x.snapshot y
    dsimp only
    rcases hz : y.record i x.snapshot with ⟨z, e | _⟩
    · rw [hz] at ht
      obtain rfl : z = _ := ht
      exact .inr (.inl ⟨y, t, e, rfl, hz, rfl⟩)
    · rw [hz] at ht
      obtain rfl : z = _ := ht
      exact .inr (.inr ⟨y, t, rfl, hz, rfl⟩)

/-- Recording and counting change nothing that is not named here. -/
theorem state_executeBy (act : Performer σ) (i : Instruction) (x : Execution σ) :
    ∃ t n k, (x.executeBy act i).state =
      { (act i x).1 with tracer := t, steps := n, ip := k } := by
  rcases x.executeBy_cases act i with ⟨y, e, ha, he⟩ | ⟨y, t, e, ha, _, he⟩ | ⟨y, t, ha, _, he⟩
  · exact ⟨y.tracer, y.steps, y.ip, by rw [ha, he]; rfl⟩
  · exact ⟨t, y.steps, y.ip, by rw [ha, he]; rfl⟩
  · exact ⟨t, y.steps + 1, y.ip + 1, by rw [ha, he]; rfl⟩

/-- The things that a tick can do. -/
theorem tickBy_cases (act : Performer σ) (x : Execution σ) :
    (x.program.get? x.ip = none ∧ x.tickBy act = .ended x (.ok ())) ∨
    (∃ c, x.program.get? x.ip = some c ∧ Instruction.ofChar? c = none ∧
      x.tickBy act = .running { x with ip := x.ip + 1 }) ∨
    (∃ (i : Instruction) (e : RunError), x.program.get? x.ip = some i.symbol ∧ x.veto = some e ∧
      x.tickBy act = .ended x (.error (.error e))) ∨
    (∃ i : Instruction, x.program.get? x.ip = some i.symbol ∧ x.veto = none ∧
      x.tickBy act = x.executeBy act i) := by
  cases hc : x.program.get? x.ip with
  | none => exact .inl ⟨rfl, by simp [tickBy, hc]⟩
  | some c =>
    cases hi : Instruction.ofChar? c with
    | none => exact .inr (.inl ⟨c, rfl, hi, by simp [tickBy, hc, hi]⟩)
    | some i =>
      have hs := Instruction.ofChar?_eq_some_iff.mp hi
      cases hv : x.veto with
      | some e =>
        exact .inr (.inr (.inl ⟨i, e, by rw [hs], rfl, by simp [tickBy, hc, hi, hv]⟩))
      | none =>
        exact .inr (.inr (.inr ⟨i, by rw [hs], rfl, by simp [tickBy, hc, hi, hv]⟩))

end Execution

theorem Machine.run_eq_runBy {σ : Type} [ByteOutput σ] (n : Nat) (m : Machine) (input : Source)
    (output : σ) : m.run n input output =
      match m.runBy Execution.perform (List.replicate n none) input output with
      | .running _ => none
      | .ended x result => some (x, result) := by
  unfold run runBy
  rw [Execution.drive_replicate]
  cases (m.start input output).ticks n <;> rfl

end ByteTape
