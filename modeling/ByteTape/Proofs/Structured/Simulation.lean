import ByteTape.Proofs.Machine.Moments
import ByteTape.Proofs.Structured.View

/-! The machine follows the tree of loops tick by tick. From the closing bracket of a
loop a tick does what it would do from the opening one, so both are the head of the loop. -/
namespace ByteTape
open ByteTape.Bracket

private theorem Direction.exists_instruction (d : Direction) :
    ∃ i : Instruction, i.direction? = some d := by
  cases d
  · exact ⟨.loopOpen, rfl⟩
  · exact ⟨.loopClose, rfl⟩

namespace Execution
variable {σ : Type} [ByteOutput σ] {u : ByteOutput.Unfailing σ} {x y : Execution σ}

private theorem veto_of_plain (h : x.Plain u) : x.veto = none := by
  simp [veto, h.cancel, h.limit]

private theorem Plain.moved (h : x.Plain u) (ip steps : Nat) :
    ({ x with steps := steps, ip := ip } : Execution σ).Plain u :=
  ⟨⟨h.remembers.sound, h.remembers.room⟩, h.limit, h.cancel, h.tracer, h.inside, h.output⟩

private theorem tick_of_perform_ok {i : Instruction} (h : x.Plain u)
    (hc : x.program.get? x.ip = some i.symbol) (hp : x.perform i = (y, .ok ())) :
    x.tick = .running { y with steps := y.steps + 1, ip := y.ip + 1 } := by
  have ht : y.tracer = none := by
    have := (kept_perform i x).tracer
    rw [hp] at this
    exact this.trans h.tracer
  simp [tick, hc, veto_of_plain h, execute, hp, record, ht]

private theorem tick_of_perform_error {i : Instruction} {e : Fault} (h : x.Plain u)
    (hc : x.program.get? x.ip = some i.symbol) (hp : x.perform i = (y, .error e)) :
    x.tick = .ended y (.error e) := by
  simp [tick, hc, veto_of_plain h, execute, hp]

/-- The execution is about to do what stands at `i`, and statements see this store. On
the closing bracket of a loop it is about to do the loop. -/
structure Stands (p : Program) (eof : EofPolicy) (u : ByteOutput.Unfailing σ)
    (x : Execution σ) (i : Nat) (s : Store) : Prop where
  plain : x.Plain u
  program : x.program = p
  eof : x.config.eof = eof
  place : x.ip = i ∨ Matched p i x.ip
  store : x.store u = s

namespace Stands
variable {p : Program} {eof : EofPolicy} {i k : Nat} {s t : Store} {a : Primitive} {d : Direction}

private theorem ip_eq (h : x.Stands p eof u i s) (hn : ∀ k, ¬ Matched p i k) : x.ip = i :=
  h.place.resolve_right (hn x.ip)

private theorem head (h : x.Stands p eof u k s) (hm : Matched p i k) : x.Stands p eof u i s where
  plain := h.plain
  program := h.program
  eof := h.eof
  place := by
    have hip : x.ip = k := h.ip_eq fun l hl => hl.not_closing i hm
    rw [hip]
    exact .inr hm
  store := h.store

private theorem ip_of_char {c : Char} (h : x.Stands p eof u i s) (hc : p.get? i = some c)
    (hne : c ≠ '[') : x.ip = i ∧ x.program.get? x.ip = some c := by
  have hi : x.ip = i := h.ip_eq fun k hm => hne (hm.opening_eq hc)
  exact ⟨hi, by rw [h.program, hi, hc]⟩

private theorem counted (h : x.Stands p eof u i s) (hk : Kept x y) (hy : y.Plain u)
    (hs : y.store u = t) (j : Nat) :
    ({ y with steps := y.steps + 1, ip := j } : Execution σ).Stands p eof u j t.count where
  plain := hy.moved _ _
  program := hk.program.trans h.program
  eof := by rw [← h.eof, ← hk.config]
  place := .inl rfl
  store := by
    rw [← hs]
    rfl

theorem comment {c : Char} (h : x.Stands p eof u i s) (hc : p.get? i = some c)
    (hi : Instruction.ofChar? c = none) :
    ∃ y, x.tick = .running y ∧ y.Stands p eof u (i + 1) s := by
  have hne : c ≠ '[' := by
    rintro rfl
    cases hi
  obtain ⟨hip, hc⟩ := h.ip_of_char hc hne
  refine ⟨{ x with ip := x.ip + 1 }, by simp [tick, hc, hi], ?_⟩
  exact ⟨h.plain.moved _ _, h.program, h.eof, .inl (by rw [hip]), h.store⟩

private theorem char_primitive (h : x.Stands p eof u i s)
    (hc : p.get? i = some a.instruction.symbol) :
    x.ip = i ∧ x.program.get? x.ip = some a.instruction.symbol := by
  apply h.ip_of_char hc
  cases a <;> decide

theorem primitive_ok (h : x.Stands p eof u i s) (hc : p.get? i = some a.instruction.symbol)
    (ha : s.apply eof i a = (t, .ok ())) :
    ∃ y, x.tick = .running y ∧ y.Stands p eof u (i + 1) t.count := by
  obtain ⟨hip, hc⟩ := h.char_primitive hc
  obtain ⟨hs, hr, hy⟩ := agrees_perform h.plain a
  rw [h.store, h.eof, hip, ha] at hs hr
  have hstill := still_perform a.direction?_instruction x
  refine ⟨_, tick_of_perform_ok h.plain hc (Prod.ext rfl hr), ?_⟩
  rw [hstill.ip, hip]
  exact h.counted hstill.toKept hy hs (i + 1)

theorem primitive_error {e : RunError} (h : x.Stands p eof u i s)
    (hc : p.get? i = some a.instruction.symbol) (ha : s.apply eof i a = (t, .error e)) :
    ∃ y, x.tick = .ended y (.error (.error e)) ∧ y.Plain u ∧ y.store u = t := by
  obtain ⟨hip, hc⟩ := h.char_primitive hc
  obtain ⟨hs, hr, hy⟩ := agrees_perform h.plain a
  rw [h.store, h.eof, hip, ha] at hs hr
  exact ⟨_, tick_of_perform_error h.plain hc (Prod.ext rfl hr), hy, hs⟩

/-- A bracket asks for its partner exactly when it would not be passed without one. -/
private theorem calls_eq (h : x.Stands p eof u i s) (d : Direction) :
    x.calls d = !s.passes d.side := by
  rw [← h.store]
  cases d <;> simp [calls, Store.passes, Direction.side, current_store, bne]

private theorem stay (h : x.Stands p eof u i s) (hb : p.get? x.ip = some d.bracket)
    (hp : s.passes d.side = true) :
    ∃ y, x.tick = .running y ∧ y.Stands p eof u (x.ip + 1) s.count := by
  obtain ⟨ins, hi⟩ := d.exists_instruction
  have hc : x.program.get? x.ip = some ins.symbol := by
    rw [h.program, hb, Instruction.direction?_eq_some_iff.mp hi]
  have hperf : x.perform ins = (x, .ok ()) := by
    simp [perform_of_direction hi, h.calls_eq, hp]
  exact ⟨_, tick_of_perform_ok h.plain hc hperf,
    h.counted (Still.refl x).toKept h.plain h.store (x.ip + 1)⟩

/-- A jump lands on the partner, and the next tick begins behind it. -/
private theorem cross (h : x.Stands p eof u i s) (hb : p.get? x.ip = some d.bracket)
    (hp : s.passes d.side = false) (hpart : Partner p x.ip k) :
    ∃ y, x.tick = .running y ∧ y.Stands p eof u (k + 1) s.count := by
  obtain ⟨ins, hi⟩ := d.exists_instruction
  have hb' : x.program.get? x.ip = some d.bracket := by rw [h.program, hb]
  have hpart' : Partner x.program x.ip k := by rw [h.program]; exact hpart
  have hr := h.plain.remembers
  have hc : x.program.get? x.ip = some ins.symbol := by
    rw [hb', Instruction.direction?_eq_some_iff.mp hi]
  have hperf : x.perform ins =
      ({ x with memo := x.memo.visit x.ip k, ip := k }, .ok ()) := by
    simp [perform_of_direction hi, h.calls_eq, hp, jump_of_partner hr hb' hpart']
  have hy : ({ x with memo := x.memo.visit x.ip k, ip := k } : Execution σ).Plain u :=
    ⟨⟨hr.sound.visit hr.room hpart', by simpa using hr.room⟩, h.plain.limit, h.plain.cancel,
      h.plain.tracer, h.plain.inside, h.plain.output⟩
  exact ⟨_, tick_of_perform_ok h.plain hc hperf,
    h.counted (y := { x with memo := x.memo.visit x.ip k, ip := k }) ⟨rfl, rfl, rfl, rfl⟩ hy
      h.store (k + 1)⟩

private theorem enter (h : x.Stands p eof u i s) (hm : Matched p i k) (hs : s.current ≠ 0) :
    ∃ y, x.tick = .running y ∧ y.Stands p eof u (i + 1) s.count := by
  rcases h.place with hip | hback
  · have hb : p.get? x.ip = some Direction.forward.bracket := by rw [hip]; exact hm.opening
    rw [← hip]
    exact h.stay hb (by simpa [Store.passes, Direction.side] using hs)
  · have hb : p.get? x.ip = some Direction.backward.bracket := hback.closing
    exact h.cross hb (by simpa [Store.passes, Direction.side] using hs) (.inr hback)

private theorem leave (h : x.Stands p eof u i s) (hm : Matched p i k) (hs : s.current = 0) :
    ∃ y, x.tick = .running y ∧ y.Stands p eof u (k + 1) s.count := by
  rcases h.place with hip | hback
  · have hb : p.get? x.ip = some Direction.forward.bracket := by rw [hip]; exact hm.opening
    exact h.cross hb (by simpa [Store.passes, Direction.side] using hs) (.inl (hip ▸ hm))
  · have hb : p.get? x.ip = some Direction.backward.bracket := hback.closing
    rw [hm.right_unique hback]
    exact h.stay hb (by simpa [Store.passes, Direction.side] using hs)

private theorem ip_of_unpaired (h : x.Stands p eof u i s) (hu : ∀ k, ¬ Partner p i k) :
    x.ip = i := h.ip_eq fun k hm => hu k (.inl hm)

private theorem pass (h : x.Stands p eof u i s) (hb : p.get? i = some d.bracket)
    (hu : ∀ k, ¬ Partner p i k) (hp : s.passes d.side = true) :
    ∃ y, x.tick = .running y ∧ y.Stands p eof u (i + 1) s.count := by
  have hip := h.ip_of_unpaired hu
  rw [← hip] at hb ⊢
  exact h.stay hb hp

private theorem refuse (h : x.Stands p eof u i s) (hb : p.get? i = some d.bracket)
    (hu : ∀ k, ¬ Partner p i k) (hp : s.passes d.side = false) :
    x.tick = .ended x (.error (.error (.unmatchedBracket i d.side))) := by
  have hip := h.ip_of_unpaired hu
  obtain ⟨ins, hi⟩ := d.exists_instruction
  have hb' : x.program.get? x.ip = some d.bracket := by rw [h.program, hip, hb]
  have hu' : ∀ k, ¬ Partner x.program x.ip k := by rw [h.program, hip]; exact hu
  have hc : x.program.get? x.ip = some ins.symbol := by
    rw [hb', Instruction.direction?_eq_some_iff.mp hi]
  apply tick_of_perform_error h.plain hc
  simp [perform_of_direction hi, h.calls_eq, hp,
    jump_of_unpaired h.plain.remembers hb' hu', hip]

theorem finish (h : x.Stands p eof u p.size s) : x.tick = .ended x (.ok ()) := by
  have hn : p.get? p.size = none := Program.get?_eq_none_iff.mpr le_rfl
  have hip : x.ip = p.size := by
    apply h.ip_eq
    intro k hm
    have := hm.opening
    rw [hn] at this
    cases this
  simp [tick, h.program, hip, hn]

end Stands

def Follows (p : Program) (eof : EofPolicy) (u : ByteOutput.Unfailing σ) (x : Execution σ)
    (j : Nat) (s : Store) : Except RunError Unit → Prop
  | .ok () => ∃ n y, x.ticks n = .running y ∧ y.Stands p eof u j s
  | .error e => ∃ n y, x.ticks n = .ended y (.error (.error e)) ∧ y.Plain u ∧ y.store u = s

namespace Follows
variable {p : Program} {eof : EofPolicy} {j k : Nat} {s t : Store} {r : Except RunError Unit}

private theorem trans (h : x.Follows p eof u k t (.ok ()))
    (h' : ∀ y : Execution σ, y.Stands p eof u k t → y.Follows p eof u j s r) : x.Follows p eof u j s r := by
  obtain ⟨m, y, hm, hy⟩ := h
  rcases r with e | _
  · obtain ⟨n, z, hn, hz⟩ := h' y hy
    exact ⟨m + n, z, (ticks_add hm).trans hn, hz⟩
  · obtain ⟨n, z, hn, hz⟩ := h' y hy
    exact ⟨m + n, z, (ticks_add hm).trans hn, hz⟩

theorem step (h : ∃ y, x.tick = .running y ∧ y.Stands p eof u k t)
    (h' : ∀ y : Execution σ, y.Stands p eof u k t → y.Follows p eof u j s r) : x.Follows p eof u j s r := by
  obtain ⟨y, ht, hy⟩ := h
  exact trans ⟨1, y, ticks_succ ht, hy⟩ h'

theorem stop {e : RunError}
    (h : ∃ y, x.tick = .ended y (.error (.error e)) ∧ y.Plain u ∧ y.store u = s) :
    x.Follows p eof u j s (.error e) := by
  obtain ⟨y, ht, hy⟩ := h
  exact ⟨1, y, by simp [ticks, ht], hy⟩

end Follows

/-- Whatever statements come to, the machine on their stretch of the text comes to it. -/
theorem follows_of_runs {p : Program} {eof : EofPolicy} {b : List Stmt} {i j : Nat}
    {s t : Store} {r : Except RunError Unit} (hr : Runs eof b s t r) (hb : Spans p i b j)
    (hx : x.Stands p eof u i s) : x.Follows p eof u j t r := by
  induction hr generalizing x i j with
  | done s =>
    cases hb
    exact ⟨0, x, rfl, hx⟩
  | skip _ ih =>
    cases hb with
    | skip hc hi tail => exact .step (hx.comment hc hi) fun y hy => ih tail hy
  | primitive ha _ ih =>
    cases hb with
    | primitive hc tail => exact .step (hx.primitive_ok hc ha) fun y hy => ih tail hy
  | fail ha =>
    cases hb with
    | primitive hc _ => exact .stop (hx.primitive_error hc ha)
  | leave hz _ ih =>
    cases hb with
    | loop hm _ tail => exact .step (hx.leave hm hz) fun y hy => ih tail hy
  | again hn _ _ ihturn ihmore =>
    have hloop := hb
    cases hb with
    | loop hm inner _ =>
      apply Follows.step (hx.enter hm hn)
      intro y hy
      apply (ihturn inner hy).trans
      intro z hz
      exact ihmore hloop (hz.head hm)
  | abort hn _ ih =>
    cases hb with
    | loop hm inner _ =>
      apply Follows.step (hx.enter hm hn)
      intro y hy
      have hstop := ih inner hy
      exact hstop
  | pass hp _ ih =>
    cases hb with
    | check hc hu tail => exact .step (hx.pass hc hu hp) fun y hy => ih tail hy
  | refuse hp =>
    cases hb with
    | check hc hu _ => exact .stop ⟨x, hx.refuse hc hu hp, hx.plain, hx.store⟩

/-- The end of a machine that has `n` ticks to go, told from statements that it stands
on. Either they end in an error and this is that end, or they end well and the machine is
behind them with no more ticks to go. -/
def Explained (p : Program) (eof : EofPolicy) (u : ByteOutput.Unfailing σ) (z : Execution σ)
    (result : Except Fault Unit) (b : List Stmt) (j : Nat) (s : Store) (n : Nat) : Prop :=
  (∃ e, Runs eof b s (z.store u) (.error e) ∧ result = .error (.error e) ∧ z.Plain u) ∨
  (∃ m ≤ n, ∃ (t : Store) (y : Execution σ), Runs eof b s t (.ok ()) ∧
    y.Stands p eof u j t ∧ y.ticks m = .ended z result)

section
variable {p : Program} {eof : EofPolicy} {z : Execution σ} {result : Except Fault Unit}
  {b c : List Stmt} {i j k m n : Nat} {s t : Store}

private theorem Explained.widen (h : Explained p eof u z result c j t m) (hmn : m ≤ n)
    (hr : ∀ t' r, Runs eof c t t' r → Runs eof b s t' r) :
    Explained p eof u z result b j s n := by
  rcases h with ⟨e, hc, he⟩ | ⟨l, hl, t', y, hc, hy⟩
  · exact .inl ⟨e, hr _ _ hc, he⟩
  · exact .inr ⟨l, hl.trans hmn, t', y, hr _ _ hc, hy⟩

/-- Every end of the machine is an end of the statements that it stands on. -/
theorem explained_of_ticks (hb : Spans p i b j) (hx : x.Stands p eof u i s)
    (hn : x.ticks n = .ended z result) : Explained p eof u z result b j s n := by
  -- every statement costs a tick, so what comes after it has fewer ticks to go
  induction n using Nat.strong_induction_on generalizing x b i j s with
  | _ n ih =>
    have hrest : ∀ {k : Nat} {t : Store} {c : List Stmt}, Spans p k c j →
        (∃ y, x.tick = .running y ∧ y.Stands p eof u k t) →
        (∀ t' r, Runs eof c t t' r → Runs eof b s t' r) →
        Explained p eof u z result b j s n := by
      rintro k t c hc ⟨y, ht, hy⟩ hr
      obtain ⟨m, rfl, hm⟩ := ticks_of_running ht hn
      exact (ih m (by omega) hc hy hm).widen (by omega) hr
    have hspans := hb
    cases hb with
    | nil => exact .inr ⟨n, le_rfl, s, x, .done s, hx, hn⟩
    | skip hc hi tail => exact hrest tail (hx.comment hc hi) fun _ _ => .skip
    | @primitive _ _ a rest hc tail =>
      rcases ha : s.apply eof i a with ⟨t, e | _⟩
      · obtain ⟨y, ht, hy, rfl⟩ := hx.primitive_error hc ha
        obtain ⟨rfl, rfl⟩ := ticks_of_ended ht hn
        exact .inl ⟨e, .fail ha, rfl, hy⟩
      · exact hrest tail (hx.primitive_ok hc ha) fun _ _ => .primitive ha
    | loop hm inner tail =>
      by_cases hz : s.current = 0
      · exact hrest tail (hx.leave hm hz) fun _ _ => .leave hz
      · obtain ⟨y, ht, hy⟩ := hx.enter hm hz
        obtain ⟨m, rfl, hm'⟩ := ticks_of_running ht hn
        rcases ih m (by omega) inner hy hm' with ⟨e, hr, he⟩ | ⟨l, hl, t, w, hr, hw, hwn⟩
        · exact .inl ⟨e, .abort hz hr, he⟩
        · have hagain := ih l (by omega) hspans (hw.head hm) hwn
          exact hagain.widen (by omega) fun _ _ => .again hz hr
    | @check _ _ d rest hc hu tail =>
      cases hp : s.passes d.side with
      | true => exact hrest tail (hx.pass hc hu hp) fun _ _ => .pass hp
      | false =>
        obtain ⟨rfl, rfl⟩ := ticks_of_ended (hx.refuse hc hu hp) hn
        rw [← hx.store] at hp ⊢
        exact .inl ⟨_, .refuse hp, rfl, hx.plain⟩

end

end Execution
end ByteTape
