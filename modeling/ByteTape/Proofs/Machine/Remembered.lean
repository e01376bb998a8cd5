import ByteTape.Proofs.Bracket.Pairing
import ByteTape.Proofs.Machine.Jumps
import Mathlib.Data.List.Dedup
import Mathlib.Data.Finset.Card

/-! What a memo holds after any history: the pairs that were jumped across, each of them
scanned exactly once. -/
namespace ByteTape
open ByteTape.Bracket

namespace JumpMemo

structure Extends (later earlier : JumpMemo) : Prop where
  scans : earlier.scans ≤ later.scans
  entry : ∀ i j, earlier.lookup? i = some j → later.lookup? i = some j

protected theorem Extends.refl (m : JumpMemo) : Extends m m := ⟨le_rfl, fun _ _ h => h⟩

protected theorem Extends.trans {a b c : JumpMemo} (h : Extends a b) (h' : Extends b c) :
    Extends a c :=
  ⟨h'.scans.trans h.scans, fun i j hl => h.entry i j (h'.entry i j hl)⟩

/-- The memo knows exactly the pairs in `crossed` from both of their ends, each of them
found by one of the scans in `found`. -/
structure Records (p : Program) (m : JumpMemo) (crossed found : List (Nat × Nat)) : Prop where
  size : m.partner.size = p.size
  entry : ∀ i j, m.lookup? i = some j ↔ (i, j) ∈ crossed ∨ (j, i) ∈ crossed
  matched : ∀ i j, (i, j) ∈ crossed → Matched p i j
  nodup : found.Nodup
  mem_found : ∀ q, q ∈ found ↔ q ∈ crossed
  scans : m.scans = found.length

variable {p : Program} {m : JumpMemo} {crossed found : List (Nat × Nat)} {i j : Nat}

theorem records_empty (p : Program) : Records p (.empty p.size) [] [] where
  size := by simp [empty]
  entry := by simp
  matched := by simp
  nodup := List.nodup_nil
  mem_found := by simp
  scans := rfl

theorem Records.sound (h : Records p m crossed found) : m.Sound p := by
  intro i j hl
  rcases (h.entry i j).mp hl with hq | hq
  · exact .inl (h.matched i j hq)
  · exact .inr (h.matched j i hq)

/-- Crossing a pair again, from either end, changes nothing. -/
private theorem Records.again (h : Records p m crossed found) (hq : (i, j) ∈ crossed) :
    Records p m (crossed ++ [(i, j)]) found := by
  have hmem : ∀ q, q ∈ crossed ++ [(i, j)] ↔ q ∈ crossed := by
    intro q
    rw [List.mem_append, List.mem_singleton, or_iff_left_iff_imp]
    rintro rfl
    exact hq
  refine ⟨h.size, ?_, ?_, h.nodup, ?_, h.scans⟩
  · intro k l
    rw [hmem, hmem]
    exact h.entry k l
  · intro k l hk
    exact h.matched k l ((hmem _).mp hk)
  · intro q
    rw [hmem]
    exact h.mem_found q

private theorem Records.first {m' : JumpMemo} (h : Records p m crossed found)
    (hm : Matched p i j) (hn : (i, j) ∉ crossed) (hsize : m'.partner.size = m.partner.size)
    (hscans : m'.scans = m.scans + 1)
    (hl : ∀ k, m'.lookup? k = if k = i then some j else if k = j then some i else m.lookup? k)
    (hi : m.lookup? i = none) (hj : m.lookup? j = none) :
    Records p m' (crossed ++ [(i, j)]) (found ++ [(i, j)]) := by
  have hlt := hm.lt
  refine ⟨hsize.trans h.size, ?_, ?_, ?_, ?_, by simp [hscans, h.scans]⟩
  · intro k l
    have hnone : ∀ a b, m.lookup? a = none → ¬ ((a, b) ∈ crossed ∨ (b, a) ∈ crossed) := by
      intro a b ha hab
      rw [(h.entry a b).mpr hab] at ha
      cases ha
    rw [hl]
    simp only [List.mem_append, List.mem_singleton, Prod.mk.injEq]
    by_cases hki : k = i
    · subst hki
      have hno := hnone k l hi
      simp only [if_pos, Option.some.injEq, true_and]
      constructor
      · rintro rfl
        exact .inl (.inr rfl)
      · intro h
        rcases h with (hq | hq) | (hq | hq)
        · exact absurd (.inl hq) hno
        · exact hq.symm
        · exact absurd (.inr hq) hno
        · omega
    · by_cases hkj : k = j
      · subst hkj
        have hno := hnone k l hj
        simp only [if_neg hki, if_pos, Option.some.injEq, and_true]
        constructor
        · rintro rfl
          exact .inr (.inr rfl)
        · intro h
          rcases h with (hq | hq) | (hq | hq)
          · exact absurd (.inl hq) hno
          · omega
          · exact absurd (.inr hq) hno
          · exact hq.symm
      · simp only [hki, hkj, if_false, false_and, and_false, or_false]
        exact h.entry k l
  · intro k l hk
    rcases List.mem_append.mp hk with hk | hk
    · exact h.matched k l hk
    · obtain ⟨rfl, rfl⟩ := Prod.mk.inj (List.mem_singleton.mp hk)
      exact hm
  · rw [List.nodup_append]
    refine ⟨h.nodup, List.nodup_singleton _, ?_⟩
    rintro q hq r hr rfl
    rw [List.mem_singleton.mp hr] at hq
    exact hn ((h.mem_found _).mp hq)
  · intro q
    rw [List.mem_append, List.mem_append, h.mem_found]

private theorem Records.extends {m' : JumpMemo} {crossed' found' : List (Nat × Nat)}
    (h : Records p m crossed found) (h' : Records p m' (crossed ++ crossed') (found ++ found')) :
    m'.Extends m := by
  constructor
  · rw [h.scans, h'.scans, List.length_append]
    exact Nat.le_add_right _ _
  · intro i j hl
    rcases (h.entry i j).mp hl with hq | hq
    · exact (h'.entry i j).mpr (.inl (List.mem_append_left _ hq))
    · exact (h'.entry i j).mpr (.inr (List.mem_append_left _ hq))

/-- An end of a pair of the program is known exactly when the pair was crossed. -/
private theorem Records.lookup?_ends (h : Records p m crossed found) (hm : Matched p i j) :
    ((i, j) ∈ crossed ∧ m.lookup? i = some j ∧ m.lookup? j = some i) ∨
    ((i, j) ∉ crossed ∧ m.lookup? i = none ∧ m.lookup? j = none) := by
  by_cases hq : (i, j) ∈ crossed
  · exact .inl ⟨hq, (h.entry i j).mpr (.inl hq), (h.entry j i).mpr (.inr hq)⟩
  · have hrev : (j, i) ∉ crossed := by
      intro hr
      have := hm.lt
      have := (h.matched j i hr).lt
      omega
    have hnone : ∀ a b, Partner p a b → (a, b) ∉ crossed → (b, a) ∉ crossed →
        m.lookup? a = none := by
      intro a b hp hab hba
      cases hl : m.lookup? a with
      | none => rfl
      | some k =>
        obtain rfl := hp.unique (h.sound a k hl)
        rcases (h.entry a b).mp hl with hl | hl
        · exact absurd hl hab
        · exact absurd hl hba
    exact .inr ⟨hq, hnone i j (.inl hm) hq hrev, hnone j i (.inr hm) hrev hq⟩

/-- The first crossing of a pair, from either end, is the one that is scanned. -/
private theorem Records.learn (h : Records p m crossed found) (hm : Matched p i j)
    (hq : (i, j) ∉ crossed) {m' : JumpMemo} (hl : m' = m.learn i j ∨ m' = m.learn j i) :
    Records p m' (crossed ++ [(i, j)]) (found ++ [(i, j)]) := by
  have hi := Program.lt_size_of_get? hm.opening
  have hj := Program.lt_size_of_get? hm.closing
  have hlt := hm.lt
  have hsize := h.size
  obtain ⟨hq, -⟩ | ⟨_, hni, hnj⟩ := h.lookup?_ends hm
  · exact absurd hq ‹_›
  · rcases hl with rfl | rfl
    · refine h.first hm hq (size_learn m i j) rfl ?_ hni hnj
      intro k
      rw [lookup?_learn (by omega) (by omega)]
      by_cases hki : k = i
      · rw [if_pos hki, if_neg (by omega), if_pos hki]
      · rw [if_neg hki, if_neg hki]
    · refine h.first hm hq (size_learn m j i) rfl ?_ hni hnj
      intro k
      rw [lookup?_learn (by omega) (by omega)]

/-- A jump from either end crosses the pair, scanned for or not. -/
theorem Records.visit {m' : JumpMemo} (h : Records p m crossed found) (hm : Matched p i j)
    (hv : m' = m.visit i j ∨ m' = m.visit j i) :
    ∃ found', Records p m' (crossed ++ [(i, j)]) found' := by
  rcases h.lookup?_ends hm with ⟨hq, hi, hj⟩ | ⟨hq, hi, hj⟩
  · have hsame : m' = m := by
      rcases hv with rfl | rfl
      · simp [JumpMemo.visit, hi]
      · simp [JumpMemo.visit, hj]
    exact ⟨found, hsame ▸ h.again hq⟩
  · refine ⟨_, h.learn hm hq ?_⟩
    rcases hv with rfl | rfl
    · exact .inl (by simp [JumpMemo.visit, hi])
    · exact .inr (by simp [JumpMemo.visit, hj])

end JumpMemo

structure Machine.Records (p : Program) (m : Machine) (crossed found : List (Nat × Nat)) :
    Prop where
  program : m.program = p
  memo : m.memo.Records p crossed found

theorem Machine.Records.remembers {p : Program} {m : Machine} {crossed found : List (Nat × Nat)}
    (h : m.Records p crossed found) : m.Remembers :=
  ⟨h.program ▸ h.memo.sound, h.program ▸ h.memo.size.ge⟩

namespace Execution
variable {σ : Type} [ByteOutput σ] {p : Program} {crossed found : List (Nat × Nat)}

/-- A tick adds the pair that it crosses, and a scan if it made one. -/
theorem records_tick {x : Execution σ} (h : x.Records p crossed found) :
    x.tick.state.Records p (crossed ++ x.crossed?.toList) (found ++ x.scanned?.toList) := by
  obtain ⟨hm, hp⟩ := memo_tick h.remembers
  obtain ⟨hprog, hmemo⟩ := h
  refine ⟨hp.trans hprog, ?_⟩
  rw [hprog] at hm
  rcases hm with ⟨i, j, hx, hm, hv⟩ | ⟨hx, hv⟩
  · rcases hmemo.lookup?_ends hm with ⟨hq, hi, hj⟩ | ⟨hq, hi, hj⟩
    · have hs : x.scanned? = none := by
        rcases hv with ⟨rfl, _⟩ | ⟨rfl, _⟩
        · simp [scanned?, hi]
        · simp [scanned?, hj]
      have hsame : x.tick.state.memo = x.memo := by
        rcases hv with ⟨_, hv⟩ | ⟨_, hv⟩
        · simp [hv, JumpMemo.visit, hi]
        · simp [hv, JumpMemo.visit, hj]
      rw [hsame, hx, hs]
      simpa using hmemo.again hq
    · have hs : x.scanned? = some (i, j) := by
        rcases hv with ⟨rfl, _⟩ | ⟨rfl, _⟩
        · simp [scanned?, hi, hx]
        · simp [scanned?, hj, hx]
      rw [hx, hs]
      apply hmemo.learn hm hq
      rcases hv with ⟨_, hv⟩ | ⟨_, hv⟩
      · exact .inl (by simp [hv, JumpMemo.visit, hi])
      · exact .inr (by simp [hv, JumpMemo.visit, hj])
  · have hs : x.scanned? = none := by simp [scanned?, hx]
    simpa [hv, hx, hs] using hmemo

omit [ByteOutput σ] in
private theorem records_signal {x : Execution σ} (h : x.Records p crossed found)
    (w : Option Bool) : (x.signal w).Records p crossed found := by
  cases w <;> exact ⟨h.program, h.memo⟩

private theorem records_drive {x : Execution σ} (h : x.Records p crossed found)
    (ws : List (Option Bool)) :
    (x.drive perform ws).state.Records p
      (crossed ++ (x.trail perform ws).filterMap crossed?)
      (found ++ (x.trail perform ws).filterMap scanned?) := by
  induction ws generalizing x crossed found with
  | nil => simpa [drive, trail, Progress.state] using h
  | cons w ws ih =>
    have ht := records_tick (records_signal h w)
    have hcons (f : Execution σ → Option (Nat × Nat)) (rest : List (Execution σ)) :
        (x.signal w :: rest).filterMap f = (f (x.signal w)).toList ++ rest.filterMap f := by
      cases hf : f (x.signal w) <;> simp [hf]
    simp only [drive, trail, tickBy_perform, hcons, ← List.append_assoc]
    cases he : (x.signal w).tick with
    | running y =>
      rw [he] at ht
      exact ih ht
    | ended y result =>
      rw [he] at ht
      simpa using ht

/-- The memo only grows while a run goes on. -/
theorem memo_grows {x : Execution σ} (h : x.Records p crossed found) (ws : List (Option Bool)) :
    (x.memo :: ((x.trail perform ws).map (·.memo) ++ [(x.drive perform ws).state.memo])).Pairwise
      (fun a b => b.Extends a) := by
  induction ws generalizing x crossed found with
  | nil => simp [drive, trail, Progress.state, JumpMemo.Extends.refl]
  | cons w ws ih =>
    have hs := records_signal h w
    have hmemo : (x.signal w).memo = x.memo := by cases w <;> rfl
    have ht := records_tick hs
    have hstep : (x.signal w).tick.state.memo.Extends x.memo := by
      rw [← hmemo]
      exact hs.memo.extends ht.memo
    simp only [drive, trail, tickBy_perform, List.map_cons, List.cons_append, hmemo]
    cases he : (x.signal w).tick with
    | running y =>
      rw [he] at ht hstep
      have hy := ih ht
      have hall : ∀ b ∈ (y.trail perform ws).map (·.memo) ++ [(y.drive perform ws).state.memo],
          b.Extends x.memo := fun b hb => (List.rel_of_pairwise_cons hy hb).trans hstep
      rw [List.pairwise_cons]
      refine ⟨?_, List.pairwise_cons.mpr ⟨hall, hy.of_cons⟩⟩
      intro b hb
      rcases List.mem_cons.mp hb with rfl | hb
      · exact .refl _
      · exact hall b hb
    | ended y result =>
      rw [he] at hstep
      have hlast : y.memo.Extends x.memo := hstep
      simp [Progress.state, hlast, JumpMemo.Extends.refl]

end Execution

namespace Machine
variable {σ : Type} [ByteOutput σ] {p : Program} {m : Machine} {crossed found : List (Nat × Nat)}

theorem records_runBy (h : m.Records p crossed found) (ws : List (Option Bool)) (input : Source)
    (output : σ) :
    (m.runBy Execution.perform ws input output).state.Records p
      (crossed ++
        ((m.start input output).trail Execution.perform ws).filterMap Execution.crossed?)
      (found ++
        ((m.start input output).trail Execution.perform ws).filterMap Execution.scanned?) := by
  have hd := Execution.records_drive (x := m.start input output) ⟨h.program, h.memo⟩ ws
  obtain ⟨o, t, he⟩ := m.state_runBy Execution.perform ws input output
  rw [he]
  exact ⟨hd.program, hd.memo⟩

theorem records_after (h : m.Records p crossed found) (es : List (Event σ)) :
    (m.after es).Records p (crossed ++ (m.moments es).filterMap Execution.crossed?)
      (found ++ (m.moments es).filterMap Execution.scanned?) := by
  induction es generalizing m crossed found with
  | nil => simpa [after, moments] using h
  | cons e es ih =>
    cases e with
    | flag value => exact ih ⟨h.program, h.memo⟩
    | tracer t => exact ih ⟨h.program, h.memo⟩
    | run ws input output =>
      have hr := records_runBy h ws input output
      simp only [after, moments, List.filterMap_append, ← List.append_assoc]
      cases he : m.runBy Execution.perform ws input output with
      | running x =>
        rw [he] at hr
        simp only [List.filterMap_nil, List.append_nil]
        exact hr
      | ended x result =>
        rw [he] at hr
        exact ih hr

/-- The memo only grows while a history goes on. -/
theorem memo_grows_history (h : m.Records p crossed found) (es : List (Event σ)) :
    (m.memo :: ((m.moments es).map (·.memo) ++ [(m.after es).memo])).Pairwise
      (fun a b => b.Extends a) := by
  induction es generalizing m crossed found with
  | nil => simp [after, moments, JumpMemo.Extends.refl]
  | cons e es ih =>
    cases e with
    | flag value => exact ih (m := { m with cancel := some value }) ⟨h.program, h.memo⟩
    | tracer t => exact ih (m := { m with tracer := some t }) ⟨h.program, h.memo⟩
    | run ws input output =>
      have hr := records_runBy h ws input output
      have hg := Execution.memo_grows (x := m.start input output) ⟨h.program, h.memo⟩ ws
      obtain ⟨o, t, hstate⟩ := m.state_runBy Execution.perform ws input output
      have hmemo := congrArg (·.memo) hstate
      dsimp only at hmemo
      rw [← hmemo, ← List.cons_append, List.pairwise_append] at hg
      obtain ⟨hg, _, hlast⟩ := hg
      simp only [List.mem_singleton, forall_eq] at hlast
      simp only [after, moments, List.map_append]
      cases he : m.runBy Execution.perform ws input output with
      | running x =>
        rw [he] at hlast
        simp only [List.map_nil, List.append_nil]
        rw [← List.cons_append, List.pairwise_append]
        refine ⟨hg, List.pairwise_singleton _ _, ?_⟩
        intro a ha b hb
        rw [List.mem_singleton.mp hb]
        exact hlast a ha
      | ended x result =>
        rw [he] at hr hlast
        have hx := List.pairwise_cons.mp (ih hr)
        rw [List.append_assoc, ← List.cons_append, List.pairwise_append]
        exact ⟨hg, hx.2, fun a ha b hb => (hx.1 b hb).trans (hlast a ha)⟩

/-- After any history the memo holds, under both of their ends, exactly the pairs of
the program that a jump was taken across. Each of them was scanned successfully once,
and what the memo once knew it knows for good. -/
theorem memo_after_history (p : Program) (c : Config) (es : List (Event σ)) :
    let m := (Machine.new p c).after es
    let crossed := ((Machine.new p c).moments es).filterMap Execution.crossed?
    let found := ((Machine.new p c).moments es).filterMap Execution.scanned?
    (∀ q ∈ crossed, q ∈ pairs p) ∧
    m.memo.partner.size = p.size ∧
    (∀ i j, m.memo.lookup? i = some j ↔ (i, j) ∈ crossed ∨ (j, i) ∈ crossed) ∧
    (∀ i j, m.memo.lookup? i = some j ↔ m.memo.lookup? j = some i) ∧
    (∀ i j, m.memo.lookup? i = some j →
      (p.get? i = some '[' ∧ p.get? j = some ']' ∧
        scan p i .forward = .ok j ∧ scan p j .backward = .ok i) ∨
      (p.get? i = some ']' ∧ p.get? j = some '[' ∧
        scan p i .backward = .ok j ∧ scan p j .forward = .ok i)) ∧
    m.scans = crossed.toFinset.card ∧
    found.Nodup ∧ (∀ q, q ∈ found ↔ q ∈ crossed) ∧ found.length = m.scans ∧
    m.scans ≤ min (p.toList.count '[') (p.toList.count ']') ∧
    (((Machine.new p c).moments es).map (·.memo) ++ [m.memo]).Pairwise
      (fun earlier later => later.Extends earlier) := by
  intro m crossed found
  have hnew : (Machine.new p c).Records p [] [] := ⟨rfl, JumpMemo.records_empty p⟩
  have hr : m.memo.Records p crossed found := (records_after hnew es).memo
  have hpairs : ∀ q ∈ crossed, q ∈ pairs p := by
    rintro ⟨i, j⟩ hq
    exact mem_pairs_iff.mpr (hr.matched i j hq)
  have hscans : m.scans = found.length := hr.scans
  have hsub : found ⊆ pairs p := fun q hq => hpairs q ((hr.mem_found q).mp hq)
  have hcard : crossed.toFinset.card = found.length := by
    rw [← List.toFinset_card_of_nodup hr.nodup]
    congr 1
    ext q
    rw [List.mem_toFinset, List.mem_toFinset, hr.mem_found]
  refine ⟨hpairs, hr.size, hr.entry, ?_, ?_, by rw [hscans, hcard], hr.nodup, hr.mem_found,
    hscans.symm, ?_, (memo_grows_history hnew es).of_cons⟩
  · intro i j
    rw [hr.entry, hr.entry, or_comm]
  · intro i j hl
    rcases (hr.entry i j).mp hl with hq | hq
    · obtain ⟨ho, hf⟩ := scan_forward_iff.mpr (hr.matched i j hq)
      obtain ⟨hc, hb⟩ := scan_backward_iff.mpr (hr.matched i j hq)
      exact .inl ⟨ho, hc, hf, hb⟩
    · obtain ⟨ho, hf⟩ := scan_forward_iff.mpr (hr.matched j i hq)
      obtain ⟨hc, hb⟩ := scan_backward_iff.mpr (hr.matched j i hq)
      exact .inr ⟨hc, ho, hb, hf⟩
  · rw [hscans]
    exact (hr.nodup.subperm hsub).length_le.trans (length_pairs_le p)

end Machine
end ByteTape
