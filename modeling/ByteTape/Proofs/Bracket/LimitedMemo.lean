import ByteTape.Proofs.Bracket.Memo

/-! Memos of any size. Where there is less room than the program has characters a store can be
refused, and what was done before it stays, so that a pair may be known from one of its ends only.
Such a memo still holds nothing but matches: no call can make a later answer wrong. -/
namespace ByteTape
namespace JumpMemo
open ByteTape.Bracket
variable {p : Program} {m : JumpMemo} {i j : Nat}

/-- The memo after a counted scan from `i` that ended at `j`, with the pair under `i` alone and only
if there is room. -/
def note (m : JumpMemo) (i j : Nat) : JumpMemo :=
  ⟨m.partner.setIfInBounds i (some j), m.scans + 1⟩

@[simp] theorem size_note (m : JumpMemo) (i j : Nat) :
    (m.note i j).partner.size = m.partner.size := by
  simp [note]

/-- The four things that a call can do. The second store is tried only when the first was made. -/
theorem resolve_cases (m : JumpMemo) (p : Program) (start : Nat) (d : Direction) :
    (∃ target, m.lookup? start = some target ∧ m.resolve p start d = (m, .ok target)) ∨
    (∃ e, m.lookup? start = none ∧ scan p start d = .error e ∧
      m.resolve p start d = (m, .error (.error e))) ∨
    (∃ target, m.lookup? start = none ∧ scan p start d = .ok target ∧
      start < m.partner.size ∧ target < m.partner.size ∧
      m.resolve p start d = (m.learn start target, .ok target)) ∨
    (∃ target, m.lookup? start = none ∧ scan p start d = .ok target ∧
      (m.partner.size ≤ start ∨ m.partner.size ≤ target) ∧
      m.resolve p start d = (m.note start target, .error (.outOfRange
        ⟨m.partner.size, if m.partner.size ≤ start then start else target⟩))) := by
  cases hl : m.lookup? start with
  | some target => exact .inl ⟨target, rfl, by simp [resolve, hl]⟩
  | none =>
    cases hscan : scan p start d with
    | error e => exact .inr (.inl ⟨e, rfl, rfl, by simp [resolve, hl, hscan]⟩)
    | ok target =>
      by_cases hstart : start < m.partner.size
      · by_cases htarget : target < m.partner.size
        · refine .inr (.inr (.inl ⟨target, rfl, rfl, hstart, htarget, ?_⟩))
          simp [resolve, hl, hscan, store, hstart, htarget, learn]
        · refine .inr (.inr (.inr ⟨target, rfl, rfl, .inr (not_lt.mp htarget), ?_⟩))
          simp [resolve, hl, hscan, store, hstart, htarget, note]
      · refine .inr (.inr (.inr ⟨target, rfl, rfl, .inl (not_lt.mp hstart), ?_⟩))
        have hroom : m.partner.setIfInBounds start (some target) = m.partner :=
          Array.setIfInBounds_eq_of_size_le (not_lt.mp hstart)
        simp [resolve, hl, hscan, store, hstart, note, not_lt.mp hstart, hroom]

/-- One entry more is the only change, and there is none without room. -/
private theorem lookup?_set (m : JumpMemo) (i j scans k : Nat) :
    lookup? ⟨m.partner.setIfInBounds i (some j), scans⟩ k =
      if k = i ∧ i < m.partner.size then some j else m.lookup? k := by
  by_cases hi : i < m.partner.size
  · have hstore : m.store i j = .ok { m with partner := m.partner.setIfInBounds i (some j) } :=
      if_pos hi
    have hlookup := lookup?_store hstore k
    simp only [hi, and_true]
    exact hlookup
  · rw [Array.setIfInBounds_eq_of_size_le (not_lt.mp hi), if_neg fun h => hi h.2]
    rfl

private theorem Sound.set (hs : m.Sound p) (hp : Partner p i j) (scans : Nat) :
    Sound p ⟨m.partner.setIfInBounds i (some j), scans⟩ := by
  intro k l h
  rw [lookup?_set] at h
  split at h
  · rename_i hk
    obtain rfl := Option.some.inj h
    exact hk.1 ▸ hp
  · exact hs k l h

/-- A call from a bracket in its own direction keeps the memo sound, however the call ends. -/
theorem Sound.resolve {start : Nat} {d : Direction} (hs : m.Sound p)
    (hb : p.get? start = some d.bracket) : (m.resolve p start d).1.Sound p := by
  rcases m.resolve_cases p start d with ⟨target, _, h⟩ | ⟨e, _, _, h⟩ |
    ⟨target, _, hscan, _, _, h⟩ | ⟨target, _, hscan, _, h⟩ <;> rw [h]
  · exact hs
  · exact hs
  · have hp := (scan_eq_ok_iff_partner hb).mp hscan
    exact (hs.set hp m.scans).set hp.symm _
  · exact hs.set ((scan_eq_ok_iff_partner hb).mp hscan) _

private theorem size_resolve (m : JumpMemo) (p : Program) (start : Nat) (d : Direction) :
    (m.resolve p start d).1.partner.size = m.partner.size := by
  rcases m.resolve_cases p start d with ⟨target, _, h⟩ | ⟨e, _, _, h⟩ |
    ⟨target, _, _, _, _, h⟩ | ⟨target, _, _, _, h⟩ <;> rw [h]
  · exact size_learn m start target
  · exact size_note m start target

def after (m : JumpMemo) (p : Program) (calls : List (Nat × Direction)) : JumpMemo :=
  calls.foldl (fun m call => (m.resolve p call.1 call.2).1) m

private theorem size_after (m : JumpMemo) (p : Program) (calls : List (Nat × Direction)) :
    (m.after p calls).partner.size = m.partner.size := by
  induction calls generalizing m with
  | nil => rfl
  | cons call calls ih => exact (ih _).trans (m.size_resolve p call.1 call.2)

private theorem Sound.after (hs : m.Sound p) {calls : List (Nat × Direction)}
    (hcalls : ∀ call ∈ calls, p.get? call.1 = some call.2.bracket) :
    (m.after p calls).Sound p := by
  induction calls generalizing m with
  | nil => exact hs
  | cons call calls ih =>
    rw [List.forall_mem_cons] at hcalls
    exact ih (hs.resolve hcalls.1) hcalls.2

/-- What is known is what a scan would find. -/
theorem Sound.scan_eq {start target : Nat} {d : Direction} (hs : m.Sound p)
    (hb : p.get? start = some d.bracket) (hl : m.lookup? start = some target) :
    scan p start d = .ok target :=
  (scan_eq_ok_iff_partner hb).mpr (hs start target hl)

/-- A memo of any size, after any calls from brackets in their own directions, answers the next such
call as a scan does, failures included, unless a store is out of range. That happens just if nothing
is known at the start, the scan succeeds, and the start or the target lies beyond the memo. The first
of the two that does is named; the scan is counted, and the start is recorded if there is room for
it. A call that fails changes nothing, and a memo with room for the whole program has room for every
call. -/
theorem answers_as_scan {p : Program} (size : Nat) {calls : List (Nat × Direction)}
    (hcalls : ∀ call ∈ calls, p.get? call.1 = some call.2.bracket) {start : Nat} {d : Direction}
    (hstart : p.get? start = some d.bracket) :
    let m := (empty size).after p calls
    let m' := (m.resolve p start d).1
    let answer := (m.resolve p start d).2
    ((∀ e, answer ≠ .error (.outOfRange e)) → answer = (scan p start d).mapError .error) ∧
    (∀ e, answer = .error (.outOfRange e) ↔
      m.lookup? start = none ∧ ∃ target, scan p start d = .ok target ∧
        (size ≤ start ∨ size ≤ target) ∧ e = ⟨size, if size ≤ start then start else target⟩) ∧
    (∀ e target, answer = .error (.outOfRange e) → scan p start d = .ok target →
      m'.scans = m.scans + 1 ∧ m'.partner.size = size ∧
        ∀ k, m'.lookup? k = if k = start ∧ start < size then some target else m.lookup? k) ∧
    (∀ e, answer = .error (.error e) → m' = m) ∧
    (p.size ≤ size → ∀ e, answer ≠ .error (.outOfRange e)) := by
  intro m m' answer
  have hs : m.Sound p := (sound_empty p size).after hcalls
  have hsize : m.partner.size = size := by
    rw [size_after]
    exact Array.size_replicate
  have hcases := m.resolve_cases p start d
  rw [hsize] at hcases
  obtain ⟨target, hl, h⟩ | ⟨e, hl, hscan, h⟩ | ⟨target, hl, hscan, hroom, hroom', h⟩ |
    ⟨target, hl, hscan, hfull, h⟩ := hcases
  · have hscan := hs.scan_eq hstart hl
    simp [answer, m', h, hl, hscan, Except.mapError]
  · simp [answer, m', h, hl, hscan, Except.mapError]
  · have hfits : ¬ (size ≤ start ∨ size ≤ target) := by omega
    simp [answer, m', h, hl, hscan, hfits, Except.mapError]
  · have hpartner := (scan_eq_ok_iff_partner hstart).mp hscan
    have hbeyond : ¬ p.size ≤ size := by
      have := hpartner.lt_size
      have := hpartner.symm.lt_size
      omega
    have hm' : m' = m.note start target := congrArg Prod.fst h
    have hanswer : answer = _ := congrArg Prod.snd h
    refine ⟨fun hno => absurd hanswer (hno _), fun e => ?_, fun e target' _ hscan' => ?_, ?_,
      fun hroom => absurd hroom hbeyond⟩
    · simp [hanswer, hl, hscan, hfull, eq_comm]
    · obtain rfl : target = target' := Except.ok.inj (hscan.symm.trans hscan')
      rw [hm', size_note]
      exact ⟨rfl, hsize, fun k => hsize ▸ lookup?_set m start target (m.scans + 1) k⟩
    · simp [hanswer]

/-- The outer pair does not fit: it is known from its left end only, and that end is answered. -/
theorem answered_from_one_end :
    let p := Program.ofList ['[', '[', ']', ']']
    let m := (empty 3).after p [(0, .forward), (3, .backward)]
    (∀ call ∈ [(0, Direction.forward), (3, .backward)], p.get? call.1 = some call.2.bracket) ∧
      p.get? 0 = some Direction.forward.bracket ∧ m.scans = 2 ∧ m.lookup? 3 = none ∧
      (m.resolve p 0 .forward).2 = .ok 3 := by
  intro p m
  have hcalls : ∀ call ∈ [(0, Direction.forward), (3, .backward)],
      p.get? call.1 = some call.2.bracket := by decide
  have hstart : p.get? 0 = some Direction.forward.bracket := by decide
  have h := answers_as_scan 3 hcalls hstart
  have hknown : m.lookup? 0 = some 3 := by decide
  have hanswer := h.1 fun e he => by
    rw [((h.2.1 e).mp he).1] at hknown
    cases hknown
  exact ⟨hcalls, hstart, by decide, by decide, hanswer.trans (by decide)⟩

end JumpMemo
end ByteTape
