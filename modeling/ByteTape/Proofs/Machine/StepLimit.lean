import ByteTape.Proofs.Machine.Failure
import ByteTape.Proofs.Machine.Supervision

/-! A step limit cuts a run off and does nothing else. The limited run goes through the
moments of the unlimited one until the limit is reached at an instruction, and it always
ends. -/
namespace ByteTape

def Machine.limitedTo (l : Option Nat) (m : Machine) : Machine :=
  { m with cancel := none, config := { m.config with maxSteps := l } }

namespace Execution
variable {σ : Type}

def limitedTo (l : Option Nat) (x : Execution σ) : Execution σ :=
  { x with cancel := none, config := { x.config with maxSteps := l } }

@[simp] theorem limitedTo_limitedTo (l l' : Option Nat) (x : Execution σ) :
    (x.limitedTo l').limitedTo l = x.limitedTo l := rfl

private theorem veto_limitedTo {x : Execution σ} {l : Option Nat} :
    (x.limitedTo l).veto = none ↔ ∀ L ∈ l, x.steps < L := by
  cases l with
  | none => simp [veto, limitedTo]
  | some L =>
    have hveto : (x.limitedTo (some L)).veto =
        if L ≤ x.steps then some (.stepLimitExceeded L) else none := rfl
    rw [hveto]
    split <;> simp_all

private theorem framed_limitedTo (l : Option Nat) : Framed (limitedTo (σ := σ) l) :=
  ⟨fun _ => rfl, fun _ => rfl, fun _ _ _ => rfl, fun _ => rfl, fun _ => rfl⟩

variable [ByteOutput σ] {x y z : Execution σ} {l : Option Nat}

private theorem perform_limitedTo (l : Option Nat) (i : Instruction) (x : Execution σ) :
    (x.limitedTo l).perform i = ((x.perform i).1.limitedTo l, (x.perform i).2) :=
  perform_supervised (fun _ => l) id id (f := fun _ => none) (by simp) ByteOutput.honest_id
    (.inr rfl) x

/-- Where neither limit forbids the next instruction, a tick is the same under both. -/
theorem tick_limitedTo (h : ∀ i : Instruction, x.program.get? x.ip = some i.symbol →
      x.veto = none ∧ ∀ L ∈ l, x.steps < L) :
    (x.limitedTo l).tick = x.tick.map (limitedTo l) := by
  rw [← tickBy_perform, ← tickBy_perform]
  apply (framed_limitedTo l).tickBy
  intro i hi
  obtain ⟨hv, hl⟩ := h i hi
  refine ⟨by rw [veto_limitedTo.mpr hl, hv], fun _ => ⟨perform_limitedTo l i x, ?_⟩⟩
  intro y _
  exact (framed_limitedTo l).record rfl (fun _ => rfl) i x.snapshot

theorem steps_of_running (h : x.tick = .running y) :
    x.steps ≤ y.steps ∧ (∀ i : Instruction, x.program.get? x.ip = some i.symbol →
      x.veto = none ∧ y.steps = x.steps + 1) := by
  rcases running_cases h with ⟨c, hc, hi, rfl⟩ | ⟨i, z, t, _, hv, hp, _, rfl⟩
  · refine ⟨le_rfl, ?_⟩
    intro i hi'
    rw [hc, Option.some.injEq] at hi'
    rw [hi', Instruction.ofChar?_symbol] at hi
    cases hi
  · have hsteps := (kept_perform i x).steps
    rw [hp] at hsteps
    simp only at hsteps
    exact ⟨by simp only; omega, fun _ _ => ⟨hv, by rw [← hsteps]⟩⟩

private theorem running_limitedTo (h : x.tick = .running y) (hl : ∀ L ∈ l, y.steps ≤ L) :
    (x.limitedTo l).tick = .running (y.limitedTo l) := by
  rw [tick_limitedTo, h]
  · rfl
  · intro i hi
    obtain ⟨hv, hsteps⟩ := (steps_of_running h).2 i hi
    refine ⟨hv, ?_⟩
    intro L hL
    have := hl L hL
    omega

/-- Each moment of a run is one of the run without a cancel flag and under any limit that
it has not passed. -/
theorem reaches_limitedTo {ws : List (Option Bool)} (hz : z ∈ x.trail perform ws)
    (hl : ∀ L ∈ l, z.steps ≤ L) :
    ∃ k, (x.limitedTo l).ticks k = .running (z.limitedTo l) := by
  have hsteady : Steady perform fun z : Execution σ =>
      (∀ L ∈ l, z.steps ≤ L) → ∃ k, (x.limitedTo l).ticks k = .running (z.limitedTo l) := by
    constructor
    · intro z w h
      cases w with
      | none => exact h
      | some value => exact h
    · intro z y h ht hy
      obtain ⟨k, hk⟩ := h fun L hL => (steps_of_running ht).1.trans (hy L hL)
      refine ⟨k + 1, ?_⟩
      rw [ticks_add hk]
      simp [ticks, running_limitedTo ht hy]
  exact hsteady.trail (fun _ => ⟨0, rfl⟩) ws z hz hl

/-- No flag is attached, and the run is under the limit `l` and has not passed it. -/
structure Limited (l : Option Nat) (x : Execution σ) : Prop where
  cancel : x.cancel = none
  limit : x.config.maxSteps = l
  steps : ∀ L ∈ l, x.steps ≤ L

omit [ByteOutput σ] in
private theorem limitedTo_self (h : x.cancel = none) : x.limitedTo x.config.maxSteps = x := by
  obtain ⟨⟨p, c, t, i, j, k, memo, cancel, tracer⟩, input, output⟩ := x
  obtain rfl : cancel = none := h
  rfl

omit [ByteOutput σ] in
private theorem Limited.limitedTo_eq (h : x.Limited l) : x.limitedTo l = x := by
  rw [← h.limit, limitedTo_self h.cancel]

omit [ByteOutput σ] in
private theorem Limited.veto_iff (h : x.Limited l) : x.veto = none ↔ ∀ L ∈ l, x.steps < L := by
  rw [← veto_limitedTo, h.limitedTo_eq]

private theorem steady_limited (l : Option Nat) : Steady (σ := σ) perform (Limited l) where
  signal x w h := by
    cases w with
    | none => exact h
    | some value => exact ⟨by simp [signal, h.cancel], h.limit, h.steps⟩
  tick x y h ht := by
    rcases running_cases ht with ⟨_, _, _, rfl⟩ | ⟨i, z, t, _, hv, hp, _, rfl⟩
    · exact ⟨h.cancel, h.limit, h.steps⟩
    · have hk := kept_perform i x
      have hcancel := cancel_perform i x
      rw [h.cancel] at hcancel
      rw [hp] at hk hcancel
      refine ⟨hcancel, hk.config ▸ h.limit, ?_⟩
      intro L hL
      have hlt := h.veto_iff.mp hv L hL
      have hsteps : z.steps = x.steps := hk.steps
      simp only
      omega

theorem tick_at_limit {L : Nat} {i : Instruction} (hi : z.program.get? z.ip = some i.symbol)
    (hL : z.steps = L) : (z.limitedTo (some L)).tick =
      .ended (z.limitedTo (some L)) (.error (.error (.stepLimitExceeded L))) := by
  have hc : (z.limitedTo (some L)).program.get? (z.limitedTo (some L)).ip = some i.symbol := hi
  have hv : (z.limitedTo (some L)).veto = some (.stepLimitExceeded L) := by
    simp [veto, limitedTo, hL]
  simp [tick, hc, hv]

/-- A limited run ends. Until then each tick leaves fewer instructions to count, or as many
and fewer characters to pass. -/
private theorem ended_of_limit {n L : Nat} (h : x.Limited (some L))
    (hn : (L - x.steps) * (x.program.size + 1) + (x.program.size - x.ip) < n) :
    ∃ y result, x.ticks n = .ended y result := by
  induction n generalizing x with
  | zero => omega
  | succ n ih =>
    cases ht : x.tick with
    | ended y result => exact ⟨y, result, by simp [ticks, ht]⟩
    | running y =>
      have hy := (steady_limited (some L)).tick x y h ht
      rw [ticks_succ ht]
      apply ih hy
      rcases running_cases ht with ⟨c, hc, _, rfl⟩ | ⟨i, z, t, _, hv, hp, _, rfl⟩
      · have hip := Program.lt_size_of_get? hc
        simp only
        omega
      · have hk := kept_perform i x
        rw [hp] at hk
        have hlt : x.steps < L := h.veto_iff.mp hv L rfl
        have hleft : L - x.steps = (L - (x.steps + 1)) + 1 := by omega
        rw [hleft, Nat.succ_mul] at hn
        simp only at hk
        simp only [hk.program, hk.steps]
        omega

/-- Without a limit the run ends, after at most `L` counted instructions if it comes to the
end of the program, and with fewer than `L` counted if it fails. -/
def EndsWithin (L : Nat) (x : Execution σ) : Prop :=
  ∃ k z result, x.ticks k = .ended z result ∧
    (result = .ok () ∧ z.steps ≤ L ∨ result ≠ .ok () ∧ z.steps < L)

private theorem endsWithin_iff {k L : Nat} {result : Except Fault Unit}
    (h : x.ticks k = .ended z result) :
    x.EndsWithin L ↔ result = .ok () ∧ z.steps ≤ L ∨ result ≠ .ok () ∧ z.steps < L := by
  constructor
  · intro hw
    obtain ⟨k', z', result', h', hsteps⟩ := hw
    obtain ⟨rfl, rfl⟩ := ended_unique h' h
    exact hsteps
  · intro hsteps
    exact ⟨k, z, result, h, hsteps⟩

/-- The last tick counts nothing, and it is no instruction if the run ends well. -/
private theorem steps_of_ended {result : Except Fault Unit} (h : x.tick = .ended y result) :
    y.steps = x.steps ∧ (result = .ok () → x.program.get? x.ip = none) := by
  rcases ended_cases h with ⟨hc, rfl, rfl⟩ | ⟨_, _, _, _, rfl, rfl⟩ | ⟨i, _, _, _, hp, rfl⟩ |
    ⟨i, _, _, _, _, _, hp, _, rfl, rfl⟩
  · exact ⟨rfl, fun _ => hc⟩
  · exact ⟨rfl, by simp⟩
  · have hk := (kept_perform i x).steps
    rw [hp] at hk
    exact ⟨hk, by simp⟩
  · have hk := (kept_perform i x).steps
    rw [hp] at hk
    exact ⟨hk, by simp⟩

private theorem ended_limitedTo {result : Except Fault Unit} (h : x.tick = .ended y result)
    (hv : result ≠ .ok () → x.veto = none ∧ ∀ L ∈ l, x.steps < L) :
    (x.limitedTo l).tick = .ended (y.limitedTo l) result := by
  rw [tick_limitedTo, h]
  · rfl
  · intro i hi
    apply hv
    intro hok
    rw [(steps_of_ended h).2 hok] at hi
    cases hi

/-- A run under the limit `L` ends because of it, or as it would under any higher limit. -/
private theorem ended_limited_cases {L : Nat} {result : Except Fault Unit} (hx : x.Limited (some L))
    (h : x.tick = .ended y result) :
    ((∃ i : Instruction, x.program.get? x.ip = some i.symbol) ∧ x.steps = L ∧ y = x ∧
      result = .error (.error (.stepLimitExceeded L))) ∨
    ((result = .ok () ∧ y.steps ≤ L ∨ result ≠ .ok () ∧ y.steps < L) ∧
      ∀ l, (∀ L' ∈ l, L ≤ L') → (x.limitedTo l).tick = .ended (y.limitedTo l) result) := by
  have hle : x.steps ≤ L := hx.steps L rfl
  obtain ⟨hsteps, hend⟩ := steps_of_ended h
  have hrest (hv : result ≠ .ok () → x.veto = none) :
      (result = .ok () ∧ y.steps ≤ L ∨ result ≠ .ok () ∧ y.steps < L) ∧
      ∀ l, (∀ L' ∈ l, L ≤ L') → (x.limitedTo l).tick = .ended (y.limitedTo l) result := by
    have hlt (hne : result ≠ .ok ()) : x.steps < L := hx.veto_iff.mp (hv hne) L rfl
    refine ⟨?_, ?_⟩
    · by_cases hok : result = .ok ()
      · exact .inl ⟨hok, by omega⟩
      · exact .inr ⟨hok, by have := hlt hok; omega⟩
    · intro l hl
      exact ended_limitedTo h fun hne =>
        ⟨hv hne, fun L' hL' => (hlt hne).trans_le (hl L' hL')⟩
  rcases ended_cases h with ⟨_, _, rfl⟩ | ⟨i, e, hi, hv, rfl, rfl⟩ | ⟨_, _, _, hv, _, _⟩ |
    ⟨_, _, _, _, _, hv, _, _, _, _⟩
  · exact .inr (hrest fun hne => absurd rfl hne)
  · have hlimit : (if L ≤ y.steps then some (.stepLimitExceeded L) else none) = some e := by
      rw [← hv]
      simp [veto, hx.cancel, hx.limit]
    split at hlimit
    · cases hlimit
      exact .inl ⟨⟨i, hi⟩, by omega, rfl, rfl⟩
    · cases hlimit
  · exact .inr (hrest fun _ => hv)
  · exact .inr (hrest fun _ => hv)

private theorem ended_of_endsWithin {k L : Nat} {result : Except Fault Unit} (hx : x.Limited none)
    (h : x.ticks k = .ended z result)
    (hL : result = .ok () ∧ z.steps ≤ L ∨ result ≠ .ok () ∧ z.steps < L) :
    ∃ n, (x.limitedTo (some L)).ticks n = .ended (z.limitedTo (some L)) result := by
  rw [← drive_replicate] at h
  obtain ⟨w, hlast, hw⟩ := exists_last_of_ended h
  have hmem := List.mem_of_getLast? hlast
  have hfree := (steady_limited none).trail hx _ w hmem
  have hsteps := (steps_of_ended hw).1
  obtain ⟨n, hn⟩ := reaches_limitedTo (l := some L) hmem (by
    intro L' hL'
    obtain rfl := Option.some.inj hL'
    omega)
  have htick : (w.limitedTo (some L)).tick = .ended (z.limitedTo (some L)) result := by
    apply ended_limitedTo hw
    intro hne
    refine ⟨hfree.veto_iff.mpr (by simp), ?_⟩
    intro L' hL'
    obtain rfl := Option.some.inj hL'
    rcases hL with ⟨hok, _⟩ | ⟨_, hlt⟩
    · exact absurd hok hne
    · omega
  exact ⟨n + 1, by rw [ticks_add hn]; simp [ticks, htick]⟩

/-- The last moment of a run under the limit `L`, which the run under any higher limit comes
through as well. -/
private theorem exists_last_of_limited {n L : Nat} (h : x.steps ≤ L)
    (hn : (L - x.steps) * (x.program.size + 1) + (x.program.size - x.ip) < n) :
    ∃ (w y : Execution σ) (result : Except Fault Unit),
      (x.limitedTo (some L)).ticks n = .ended y result ∧
      w.Limited (some L) ∧ w.tick = .ended y result ∧
      ∀ l, (∀ L' ∈ l, L ≤ L') → ∃ k, (x.limitedTo l).ticks k = .running (w.limitedTo l) := by
  have hx : (x.limitedTo (some L)).Limited (some L) := by
    refine ⟨rfl, rfl, ?_⟩
    intro L' hL'
    obtain rfl := Option.some.inj hL'
    exact h
  obtain ⟨y, result, hend⟩ := ended_of_limit hx hn
  have hdrive := hend
  rw [← drive_replicate] at hdrive
  obtain ⟨w, hlast, hw⟩ := exists_last_of_ended hdrive
  have hmem := List.mem_of_getLast? hlast
  have hwL := (steady_limited (some L)).trail hx _ w hmem
  refine ⟨w, y, result, hend, hwL, hw, ?_⟩
  intro l hl
  have hreach := reaches_limitedTo hmem fun L' hL' => (hwL.steps L rfl).trans (hl L' hL')
  rwa [limitedTo_limitedTo] at hreach

/-- What a run has stored when it ends under a limit, it has stored when it ends under a
higher one. -/
private theorem stored_prefix_limit (a : ByteOutput.Account σ) {w y' : Execution σ} {L L' k n : Nat}
    {result result' : Except Fault Unit} (hw : w.Limited (some L))
    (hend : w.tick = .ended y result) (hle : L ≤ L')
    (hk : (x.limitedTo (some L')).ticks k = .running (w.limitedTo (some L')))
    (hn : (x.limitedTo (some L')).ticks n = .ended y' result') :
    a.stored y.output <+: a.stored y'.output := by
  obtain ⟨d, hd⟩ := ended_from hk hn
  rcases ended_limited_cases hw hend with ⟨_, _, rfl, _⟩ | ⟨_, htick⟩
  · have hprefix := stored_prefix_ticks a d (y.limitedTo (some L'))
    rw [hd] at hprefix
    exact hprefix
  · obtain ⟨rfl, _⟩ := ticks_of_ended (htick (some L') (by simpa using hle)) hd
    exact List.prefix_rfl

private theorem conclude_limitedTo (l : Option Nat) (x : Execution σ)
    (result : Except Fault Unit) : (x.limitedTo l).conclude result =
      ((x.conclude result).1.limitedTo l, (x.conclude result).2) :=
  conclude_map (f := limitedTo l) (fun _ => rfl) (fun _ => rfl) (fun _ => rfl)
    (fun _ _ => rfl) (fun _ _ => rfl) x result

end Execution

namespace Machine
open Execution
variable {σ : Type} [ByteOutput σ]

theorem run_eq_some_iff {n : Nat} {m : Machine} {input : Source} {output : σ}
    {x : Execution σ} {result : Except Fault Unit} :
    m.run n input output = some (x, result) ↔
      ∃ y r, (m.start input output).ticks n = .ended y r ∧ y.conclude r = (x, result) := by
  unfold run
  cases (m.start input output).ticks n with
  | running y => simp
  | ended y r => simp

theorem runBy_of_run {n : Nat} {m : Machine} {input : Source} {output : σ} {x : Execution σ}
    {result : Except Fault Unit} (h : m.run n input output = some (x, result)) :
    m.runBy perform (List.replicate n none) input output = .ended x result := by
  obtain ⟨y, r, hy, hconclude⟩ := run_eq_some_iff.mp h
  rw [← drive_replicate] at hy
  exact runBy_eq_ended_iff.mpr ⟨y, r, hy, hconclude⟩

/-- The step limit is an exact cut. Under the limit `L` every run ends. It is the run
without a limit, in all that can be seen of it, if that one comes to the end of the program
after at most `L` counted instructions or fails with fewer than `L` counted. If not, or if
that one never ends, it stops with `L` counted in the state in which that one is about to
carry out one instruction more. Under a higher limit no output is lost. -/
theorem limit_cuts_run (m : Machine) (L : Nat) (input : Source) (output : σ) :
    let free := (m.limitedTo none).start input output
    ∃ x result,
      (m.limitedTo (some L)).run ((L + 1) * (m.program.size + 1)) input output =
        some (x, result) ∧
      (free.EndsWithin L → ∃ k y, (m.limitedTo none).run k input output = some (y, result) ∧
        x = y.limitedTo (some L)) ∧
      (¬ free.EndsWithin L →
        result = .error (.error (.stepLimitExceeded L)) ∧ x.steps = L ∧
        ∃ k z, free.ticks k = .running z ∧ z.steps = L ∧
          (∃ i : Instruction, z.program.get? z.ip = some i.symbol) ∧
          x.LooksLike z.toMachine ∧ x.input = z.input ∧
          ∀ a : ByteOutput.Account σ, a.stored x.output = a.stored z.output) ∧
      (∀ k z r, free.ticks k = .ended z r →
        (free.EndsWithin L ↔ r = .ok () ∧ z.steps ≤ L ∨ r ≠ .ok () ∧ z.steps < L)) ∧
      (∀ L' n x' result', L ≤ L' →
        (m.limitedTo (some L')).run n input output = some (x', result') →
        ∀ a : ByteOutput.Account σ, a.stored x.output <+: a.stored x'.output) := by
  intro free
  have hfree : free.Limited none := ⟨rfl, rfl, by simp⟩
  have hzero : free.steps = 0 := rfl
  have hip : free.ip = 0 := rfl
  have hsize : free.program.size = m.program.size := rfl
  have hbound : (L - free.steps) * (free.program.size + 1) + (free.program.size - free.ip) <
      (L + 1) * (m.program.size + 1) := by
    rw [hzero, hip, hsize, Nat.succ_mul, Nat.sub_zero]
    omega
  obtain ⟨w, y, result, hend, hwL, hw, hreach⟩ :=
    exists_last_of_limited (hzero ▸ Nat.zero_le L) hbound
  have hcases := ended_limited_cases hwL hw
  refine ⟨(y.conclude result).1, (y.conclude result).2,
    run_eq_some_iff.mpr ⟨y, result, hend, rfl⟩, ?_, ?_, fun _ _ _ => endsWithin_iff, ?_⟩
  · intro hwithin
    obtain ⟨k, z, r, hz, hL⟩ := hwithin
    obtain ⟨n, hn⟩ := ended_of_endsWithin hfree hz hL
    obtain ⟨rfl, rfl⟩ := ended_unique hn hend
    exact ⟨k, (z.conclude r).1, run_eq_some_iff.mpr ⟨z, r, hz, by rw [conclude_limitedTo]⟩,
      by rw [conclude_limitedTo]⟩
  · intro hnot
    obtain ⟨k, hk⟩ := hreach none (by simp)
    rw [hfree.limitedTo_eq] at hk
    rcases hcases with ⟨hi, hL, rfl, rfl⟩ | ⟨hL, htick⟩
    · have hlook := y.looksLike_conclude (.error (.error (.stepLimitExceeded L)))
      obtain ⟨o, t, hconclude⟩ := y.conclude_eq (.error (.error (.stepLimitExceeded L)))
      refine ⟨rfl, hlook.steps.trans hL, k, y.limitedTo none, hk, hL, hi, ?_, ?_,
        fun a => stored_conclude a y _⟩
      · exact hlook.trans ⟨rfl, rfl, rfl, rfl, rfl⟩
      · rw [hconclude]
        rfl
    · refine absurd ⟨k + 1, y.limitedTo none, result, ?_, hL⟩ hnot
      rw [ticks_add hk]
      simp [ticks, htick none (by simp)]
  · intro L' n x' result' hle hrun a
    obtain ⟨y', r', hy', hconclude⟩ := run_eq_some_iff.mp hrun
    have hx' : (y'.conclude r').1 = x' := congrArg Prod.fst hconclude
    obtain ⟨k, hk⟩ := hreach (some L') (by simpa using hle)
    rw [← hx', stored_conclude, stored_conclude]
    exact stored_prefix_limit a hwL hw hle hk hy'

end Machine
end ByteTape
