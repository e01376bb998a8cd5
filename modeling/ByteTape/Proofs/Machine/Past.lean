import ByteTape.Proofs.Machine.Moments

/-! Moments of a run and what lies behind them. A property of the earlier moments and the state
that they led to, if each tick keeps it, holds wherever the run is cut. -/
namespace ByteTape

/-- An entry of a `filterMap` comes from a place of the list, with the entries ahead of it coming
from the places ahead of that. -/
theorem exists_of_getElem?_filterMap {α β : Type} {f : α → Option β} {l : List α} {k : Nat} {b : β}
    (h : (l.filterMap f)[k]? = some b) :
    ∃ pre a post, l = pre ++ a :: post ∧ f a = some b ∧ (pre.filterMap f).length = k := by
  obtain ⟨hk, hb⟩ := List.getElem?_eq_some_iff.mp h
  have hsplit : l.filterMap f = (l.filterMap f).take k ++ b :: (l.filterMap f).drop (k + 1) := by
    rw [← hb, List.getElem_cons_drop, List.take_append_drop]
  obtain ⟨front, back, rfl, hfront, hback⟩ := List.filterMap_eq_append_iff.mp hsplit
  obtain ⟨idle, a, post, rfl, hidle, ha, _⟩ := List.filterMap_eq_cons_iff.mp hback
  refine ⟨front ++ idle, a, post, by simp, ha, ?_⟩
  rw [List.filterMap_append, List.filterMap_eq_nil_iff.mpr hidle, List.append_nil, hfront,
    List.length_take_of_le hk.le]

namespace Execution
variable {σ : Type} [ByteOutput σ] {x y z : Execution σ}

/-- The instruction that the next tick carries out, if it does carry one out. -/
def due? (x : Execution σ) : Option Instruction :=
  if x.veto = none then (x.program.get? x.ip).bind Instruction.ofChar? else none

omit [ByteOutput σ] in
theorem due?_eq_some_iff {i : Instruction} :
    x.due? = some i ↔ x.veto = none ∧ x.program.get? x.ip = some i.symbol := by
  unfold due?
  by_cases hv : x.veto = none
  · simp only [hv, if_true, true_and, Option.bind_eq_some_iff, Instruction.ofChar?_eq_some_iff]
    exact ⟨fun ⟨_, hc, hi⟩ => hi ▸ hc, fun hc => ⟨_, hc, rfl⟩⟩
  · simp [hv]

theorem tick_of_due {i : Instruction} (h : x.due? = some i) : x.tick = x.executeBy perform i := by
  obtain ⟨hv, hc⟩ := due?_eq_some_iff.mp h
  simp only [tick, hc, Instruction.ofChar?_symbol, hv]
  rfl

/-- A tick that is to carry nothing out moves to the next character at most. -/
theorem tick_of_idle (h : x.due? = none) :
    x.tick = .running { x with ip := x.ip + 1 } ∨ ∃ r : Except RunError Unit,
      x.tick = .ended x (r.mapError .error) := by
  rw [← tickBy_perform]
  rcases x.tickBy_cases perform with ⟨_, he⟩ | ⟨_, _, _, he⟩ | ⟨_, e, _, _, he⟩ | ⟨i, hc, hv, _⟩
  · exact .inr ⟨.ok (), he⟩
  · exact .inl he
  · exact .inr ⟨.error e, he⟩
  · rw [due?_eq_some_iff.mpr ⟨hv, hc⟩] at h
    cases h

/-- The state after a tick, but for what counting and recording make of it. -/
theorem state_tick (x : Execution σ) : ∃ t n k, x.tick.state =
    { (x.due?.elim x fun i => (x.perform i).1) with tracer := t, steps := n, ip := k } := by
  cases hd : x.due? with
  | none =>
    rcases tick_of_idle hd with he | ⟨r, he⟩
    · exact ⟨x.tracer, x.steps, x.ip + 1, by rw [he]; rfl⟩
    · exact ⟨x.tracer, x.steps, x.ip, by rw [he]; rfl⟩
  | some i =>
    rw [tick_of_due hd]
    exact x.state_executeBy perform i

/-- A property of the moments behind a state and of the state, kept by each tick that the run
outlasts. -/
structure Historic (P : List (Execution σ) → Execution σ → Prop) : Prop where
  signal : ∀ past x w, P past x → P past (x.signal w)
  tick : ∀ past x y, P past x → x.tick = .running y → P (past ++ [x]) y

namespace Historic
variable {P : List (Execution σ) → Execution σ → Prop} {past pre post : List (Execution σ)}
  {ws : List (Option Bool)}

private theorem moment_from (hP : Historic P) (h : P past x)
    (hz : x.trail perform ws = pre ++ z :: post) : P (past ++ pre) z := by
  induction ws generalizing x past pre with
  | nil => cases pre <;> cases hz
  | cons w ws ih =>
    have hw := hP.signal past x w h
    simp only [trail, tickBy_perform] at hz
    cases pre with
    | nil =>
      obtain ⟨rfl, _⟩ := List.cons.inj hz
      rwa [List.append_nil]
    | cons v pre =>
      obtain ⟨rfl, hrest⟩ := List.cons.inj hz
      cases ht : (x.signal w).tick with
      | running y =>
        rw [ht] at hrest
        rw [List.append_cons]
        exact ih (hP.tick _ _ y hw ht) hrest
      | ended y result =>
        rw [ht] at hrest
        cases pre <;> cases hrest

theorem moment (hP : Historic P) (h : P [] x) (hz : x.trail perform ws = pre ++ z :: post) :
    P pre z := hP.moment_from h hz

end Historic

/-- A run that ended did so by the tick from its last moment. -/
theorem exists_last {ws : List (Option Bool)} {result : Except Fault Unit}
    (h : x.drive perform ws = .ended y result) :
    ∃ pre z, x.trail perform ws = pre ++ [z] ∧ z.tick = .ended y result := by
  obtain ⟨z, hz, ht⟩ := exists_last_of_ended h
  obtain ⟨pre, hpre⟩ := List.getLast?_eq_some_iff.mp hz
  exact ⟨pre, z, hpre, ht⟩

/-- A moment whose tick ends the run is its last. -/
theorem drive_of_ended {ws : List (Option Bool)} {result : Except Fault Unit}
    (hz : z ∈ x.trail perform ws) (h : z.tick = .ended y result) :
    x.drive perform ws = .ended y result := by
  induction ws generalizing x with
  | nil => cases hz
  | cons w ws ih =>
    simp only [trail, drive, tickBy_perform] at hz ⊢
    rcases List.mem_cons.mp hz with rfl | hz
    · rw [h]
    · cases ht : (x.signal w).tick with
      | running v =>
        rw [ht] at hz
        exact ih hz
      | ended v r =>
        rw [ht] at hz
        cases hz

private theorem running_of_moment {ws : List (Option Bool)} {pre post : List (Execution σ)}
    (hz : x.trail perform ws = pre ++ z :: post) : ∀ v ∈ pre, ∃ u, v.tick = .running u := by
  have hP : Historic (σ := σ) fun past _ => ∀ v ∈ past, ∃ u, v.tick = .running u := by
    constructor
    · exact fun _ _ _ h => h
    · intro past x y h ht v hv
      rcases List.mem_append.mp hv with hv | hv
      · exact h v hv
      · obtain rfl := List.mem_singleton.mp hv
        exact ⟨y, ht⟩
  exact hP.moment (by simp) hz

theorem last_of_ended {ws : List (Option Bool)} {pre post : List (Execution σ)}
    {result : Except Fault Unit} (hz : x.trail perform ws = pre ++ z :: post)
    (h : z.tick = .ended y result) : post = [] := by
  cases post with
  | nil => rfl
  | cons v post =>
    rw [List.append_cons] at hz
    obtain ⟨u, hu⟩ := running_of_moment hz z (by simp)
    rw [hu] at h
    cases h

end Execution

/-- A run that failed at a moment comes to the state and the error of that, but for the last
flushes. -/
theorem Machine.runBy_of_failed {σ : Type} [ByteOutput σ] {m : Machine} {ws : List (Option Bool)}
    {input : Source} {output : σ} {z y : Execution σ} {e : RunError}
    (hz : z ∈ (m.start input output).trail Execution.perform ws)
    (h : z.tick = .ended y (.error (.error e))) :
    m.runBy Execution.perform ws input output = .ended y.flushed (.error (.error e)) :=
  runBy_eq_ended_iff.mpr
    ⟨y, _, Execution.drive_of_ended hz h, y.conclude_error e⟩

end ByteTape
