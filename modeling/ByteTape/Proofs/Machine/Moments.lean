import ByteTape.Proofs.Machine.Lasting

/-! The moments of a run. What its first moment has and each tick keeps, all moments have;
a run that ended did so by the tick from the last of them. -/
namespace ByteTape
namespace Execution
variable {σ : Type}

/-- What a run keeps for as long as it goes on. -/
structure Steady (act : Performer σ) (Q : Execution σ → Prop) : Prop where
  signal : ∀ x w, Q x → Q (x.signal w)
  tick : ∀ x y, Q x → x.tickBy act = .running y → Q y

theorem Steady.trail {act : Performer σ} {Q : Execution σ → Prop} (hq : Steady act Q)
    {x : Execution σ} (h : Q x) (ws : List (Option Bool)) : ∀ z ∈ x.trail act ws, Q z := by
  induction ws generalizing x with
  | nil =>
    intro z hz
    cases hz
  | cons w ws ih =>
    have hw := hq.signal x w h
    intro z hz
    simp only [Execution.trail] at hz
    rcases List.mem_cons.mp hz with rfl | hz
    · exact hw
    · cases ht : (x.signal w).tickBy act with
      | running y =>
        rw [ht] at hz
        exact ih (hq.tick _ y hw ht) z hz
      | ended y result =>
        rw [ht] at hz
        cases hz

theorem steady_of_lasting [ByteOutput σ] {P : Machine → Prop} (hl : Machine.Lasting σ P) :
    Steady (σ := σ) perform fun x => P x.toMachine where
  signal _ w h := hl.signal h w
  tick x y h ht := by
    have hy := hl.tick x h
    rw [← tickBy_perform, ht] at hy
    exact hy

/-- A run that ended has a last moment. -/
theorem exists_last_of_ended {act : Performer σ} {x y : Execution σ} {ws : List (Option Bool)}
    {result : Except Fault Unit} (h : x.drive act ws = .ended y result) :
    ∃ z, (x.trail act ws).getLast? = some z ∧ z.tickBy act = .ended y result := by
  induction ws generalizing x with
  | nil => cases h
  | cons w ws ih =>
    simp only [drive, Execution.trail] at h ⊢
    cases ht : (x.signal w).tickBy act with
    | running y' =>
      rw [ht] at h
      obtain ⟨z, hz, hend⟩ := ih h
      exact ⟨z, by simp [List.getLast?_cons, hz], hend⟩
    | ended y' result' =>
      rw [ht] at h
      exact ⟨x.signal w, rfl, ht.trans h⟩

/-- What every tick keeps, also the one that ends a run. -/
structure Firm [ByteOutput σ] (Q : Execution σ → Prop) : Prop where
  signal : ∀ x w, Q x → Q (x.signal w)
  tick : ∀ x, Q x → Q x.tick.state

theorem Firm.steady [ByteOutput σ] {Q : Execution σ → Prop} (hq : Firm Q) : Steady perform Q where
  signal := hq.signal
  tick x y h ht := by
    have hy := hq.tick x h
    rwa [← tickBy_perform, ht] at hy

theorem Firm.ended [ByteOutput σ] {Q : Execution σ → Prop} (hq : Firm Q) {x y : Execution σ}
    {ws : List (Option Bool)} {result : Except Fault Unit} (h : Q x)
    (hd : x.drive perform ws = .ended y result) : Q y := by
  obtain ⟨z, hz, ht⟩ := exists_last_of_ended hd
  have hy := hq.tick z (hq.steady.trail h ws z (List.mem_of_getLast? hz))
  rwa [← tickBy_perform, ht] at hy

/-- What forbids an instruction names no place. -/
theorem ip?_of_veto {x : Execution σ} {e : RunError} (h : x.veto = some e) : e.ip? = none := by
  unfold veto at h
  split at h
  · cases h
    rfl
  · split at h
    · cases h
    · split at h
      · cases h
        rfl
      · cases h

def rowBy? (act : Performer σ) (x : Execution σ) : Option Trace.Row :=
  match x.veto, (x.program.get? x.ip).bind Instruction.ofChar? with
  | none, some i =>
    match act i x with
    | (y, .ok ()) => some (y.row i x.snapshot)
    | (_, .error _) => none
  | _, _ => none

def row? [ByteOutput σ] (x : Execution σ) : Option Trace.Row := x.rowBy? perform

/-- Whether the next tick performs an instruction whose row the tracer cannot write. -/
def unrecorded [ByteOutput σ] (x : Execution σ) : Bool :=
  match x.row?, x.tracer with
  | some r, some t => !(t.row r).2.isOk
  | _, _ => false

variable [ByteOutput σ] {x y z : Execution σ}

theorem row?_of_perform_ok {i : Instruction} (hc : x.program.get? x.ip = some i.symbol)
    (hv : x.veto = none) (hp : x.perform i = (y, .ok ())) :
    x.row? = some (y.row i x.snapshot) := by
  simp [row?, rowBy?, hv, hc, hp]

/-- What a tick after which the run goes on has done. -/
theorem running_cases (h : x.tick = .running y) :
    (∃ c, x.program.get? x.ip = some c ∧ Instruction.ofChar? c = none ∧
      y = { x with ip := x.ip + 1 }) ∨
    (∃ (i : Instruction) (z : Execution σ) (t : Option Tracer),
      x.program.get? x.ip = some i.symbol ∧ x.veto = none ∧ x.perform i = (z, .ok ()) ∧
      z.record i x.snapshot = ({ z with tracer := t }, .ok ()) ∧
      y = { z with tracer := t, steps := z.steps + 1, ip := z.ip + 1 }) := by
  rw [← tickBy_perform] at h
  rcases x.tickBy_cases perform with ⟨_, he⟩ | ⟨c, hc, hi, he⟩ | ⟨_, _, _, _, he⟩ |
    ⟨i, hc, hv, he⟩
  · rw [he] at h
    cases h
  · rw [he] at h
    exact .inl ⟨c, hc, hi, (Progress.running.inj h).symm⟩
  · rw [he] at h
    cases h
  · rw [he] at h
    rcases x.executeBy_cases perform i with ⟨_, _, _, he⟩ | ⟨_, _, _, _, _, he⟩ |
      ⟨z, t, hp, hr, he⟩
    · rw [he] at h
      cases h
    · rw [he] at h
      cases h
    · rw [he] at h
      exact .inr ⟨i, z, t, hc, hv, hp, hr, (Progress.running.inj h).symm⟩

/-- What the last tick of a run has done: nothing at the end of the program, nothing
because of a veto, an instruction that failed, or one whose row failed. -/
theorem ended_cases {result : Except Fault Unit} (h : x.tick = .ended y result) :
    (x.program.get? x.ip = none ∧ y = x ∧ result = .ok ()) ∨
    (∃ (i : Instruction) (e : RunError), x.program.get? x.ip = some i.symbol ∧
      x.veto = some e ∧ y = x ∧ result = .error (.error e)) ∨
    (∃ (i : Instruction) (e : Fault), x.program.get? x.ip = some i.symbol ∧ x.veto = none ∧
      x.perform i = (y, .error e) ∧ result = .error e) ∨
    (∃ (i : Instruction) (z : Execution σ) (t : Option Tracer) (e : Fault),
      x.program.get? x.ip = some i.symbol ∧ x.veto = none ∧ x.perform i = (z, .ok ()) ∧
      z.record i x.snapshot = ({ z with tracer := t }, .error e) ∧
      y = { z with tracer := t } ∧ result = .error e) := by
  rw [← tickBy_perform] at h
  rcases x.tickBy_cases perform with ⟨hc, he⟩ | ⟨_, _, _, he⟩ | ⟨i, e, hc, hv, he⟩ |
    ⟨i, hc, hv, he⟩
  · rw [he] at h
    obtain ⟨rfl, rfl⟩ := Progress.ended.inj h
    exact .inl ⟨hc, rfl, rfl⟩
  · rw [he] at h
    cases h
  · rw [he] at h
    obtain ⟨rfl, rfl⟩ := Progress.ended.inj h
    exact .inr (.inl ⟨i, e, hc, hv, rfl, rfl⟩)
  · rw [he] at h
    rcases x.executeBy_cases perform i with ⟨z, e, hp, he⟩ | ⟨z, t, e, hp, hr, he⟩ |
      ⟨_, _, _, _, he⟩
    · rw [he] at h
      obtain ⟨rfl, rfl⟩ := Progress.ended.inj h
      exact .inr (.inr (.inl ⟨i, e, hc, hv, hp, rfl⟩))
    · rw [he] at h
      obtain ⟨rfl, rfl⟩ := Progress.ended.inj h
      exact .inr (.inr (.inr ⟨i, z, t, e, hc, hv, hp, hr, rfl, rfl⟩))
    · rw [he] at h
      cases h

omit [ByteOutput σ] in
/-- A row that fails is one that the tracer could not write. -/
theorem record_error {i : Instruction} {before : Snapshot} {e : Fault}
    (h : z.record i before = (y, .error e)) :
    ∃ t e', z.tracer = some t ∧ (t.row (z.row i before)).2 = .error e' ∧
      e = .error (.stream before.ip e') := by
  unfold record at h
  cases ht : z.tracer with
  | none => simp [ht] at h
  | some t =>
    simp only [ht] at h
    rcases hw : t.row (z.row i before) with ⟨t', e' | _⟩
    · rw [hw] at h
      obtain ⟨_, he⟩ := Prod.mk.inj h
      cases he
      exact ⟨t, e', rfl, by rw [hw], rfl⟩
    · rw [hw] at h
      cases h

theorem unrecorded_of_record_error {i : Instruction} {e : Fault}
    (hc : x.program.get? x.ip = some i.symbol) (hv : x.veto = none)
    (hp : x.perform i = (z, .ok ())) (hr : z.record i x.snapshot = (y, .error e)) :
    x.unrecorded = true := by
  obtain ⟨t, e', ht, hw, _⟩ := record_error hr
  have htracer : z.tracer = x.tracer := by
    have := (kept_perform i x).tracer
    rwa [hp] at this
  rw [htracer] at ht
  simp [unrecorded, row?_of_perform_ok hc hv hp, ht, hw, Except.isOk, Except.toBool]

section Ticks
variable {m n : Nat} {result result' : Except Fault Unit}

theorem ticks_succ (h : x.tick = .running y) : x.ticks (m + 1) = y.ticks m := by
  simp [ticks, h]

theorem ticks_add (h : x.ticks m = .running y) : x.ticks (m + n) = y.ticks n := by
  induction m generalizing x with
  | zero =>
    cases h
    rw [Nat.zero_add]
  | succ m ih =>
    rw [Nat.succ_add]
    simp only [ticks] at h ⊢
    split at h
    · rename_i z hz
      exact ih h
    · cases h

theorem ticks_of_running (h : x.tick = .running y) (hn : x.ticks n = .ended z result) :
    ∃ m, n = m + 1 ∧ y.ticks m = .ended z result := by
  cases n with
  | zero => cases hn
  | succ m => exact ⟨m, rfl, (ticks_succ h).symm.trans hn⟩

theorem ticks_of_ended (h : x.tick = .ended y result') (hn : x.ticks n = .ended z result) :
    z = y ∧ result = result' := by
  cases n with
  | zero => cases hn
  | succ m =>
    simp only [ticks, h, Progress.ended.injEq] at hn
    exact ⟨hn.1.symm, hn.2.symm⟩

theorem ended_unique (h : x.ticks m = .ended y result) (h' : x.ticks n = .ended z result') :
    y = z ∧ result = result' := by
  induction m generalizing x n with
  | zero => cases h
  | succ m ih =>
    cases ht : x.tick with
    | running w =>
      rw [ticks_succ ht] at h
      obtain ⟨n', rfl, hn⟩ := ticks_of_running ht h'
      exact ih h hn
    | ended w r =>
      obtain ⟨rfl, rfl⟩ := ticks_of_ended ht h
      obtain ⟨rfl, rfl⟩ := ticks_of_ended ht h'
      exact ⟨rfl, rfl⟩

/-- A run that ends does so from each state that it has come through. -/
theorem ended_from (h : x.ticks m = .running y) (hn : x.ticks n = .ended z result) :
    ∃ d, y.ticks d = .ended z result := by
  induction m generalizing x n with
  | zero =>
    cases h
    exact ⟨n, hn⟩
  | succ m ih =>
    cases ht : x.tick with
    | running w =>
      rw [ticks_succ ht] at h
      obtain ⟨n', rfl, hrest⟩ := ticks_of_running ht hn
      exact ih h hrest
    | ended w r => simp [ticks, ht] at h

end Ticks

end Execution
end ByteTape
