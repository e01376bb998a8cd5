import ByteTape.Proofs.Config.Settings
import Mathlib.Data.List.Induction
import Mathlib.Data.List.Nodup

/-! What a text means as a configuration. Its lines count where the last header above them names
the section. Of several lines for one key the last that sets a policy holds; lines with a fault are
reported, each once, and do nothing else. -/
namespace ByteTape.Config

variable {ls : List (List Char)} {n : Nat} {line : List Char} {s : Setting}

/-- The last header before line `n` names the section that counts. -/
def Inside (ls : List (List Char)) (n : Nat) : Prop :=
  ∃ m header, m < n ∧ ls[m]? = some header ∧ IsHeader header sectionName ∧
    ∀ k other name, m < k → k < n → ls[k]? = some other → ¬ IsHeader other name

/-- Line `n` is a plain line of the section that counts. -/
structure Effective (ls : List (List Char)) (n : Nat) (line : List Char) : Prop where
  found : ls[n]? = some line
  plain : Plain line
  inside : Inside ls n

/-- Line `n` is no header, and nothing is read from it. -/
def Idle (ls : List (List Char)) (n : Nat) : Prop :=
  ∀ line, ls[n]? = some line → (∀ name, ¬ IsHeader line name) ∧ ¬ Effective ls n line

def SetsAt (ls : List (List Char)) (n : Nat) (s : Setting) : Prop :=
  ∃ line, Effective ls n line ∧ Sets line s

def FaultyAt (ls : List (List Char)) (n : Nat) (problem : Problem) : Prop :=
  ∃ line, Effective ls n line ∧ Faulty line problem

/-- A line sets the policy, and no later one sets a policy with the same key. -/
def LastSet (ls : List (List Char)) (s : Setting) : Prop :=
  ∃ n, SetsAt ls n s ∧ ∀ m s', n < m → SetsAt ls m s' → s'.key ≠ s.key

def Unset (ls : List (List Char)) (key : String) : Prop :=
  ∀ n s, SetsAt ls n s → s.key ≠ key

def Holds (c : Config) : Setting → Prop
  | .eof policy => c.eof = policy
  | .maxSteps limit => c.maxSteps = some limit
  | .trace on => c.trace = on

private theorem eq_of_holds_iff {c c' : Config} (h : ∀ s, c.Holds s ↔ c'.Holds s) : c = c' := by
  have heof : c'.eof = c.eof := (h (.eof c.eof)).mp rfl
  have htrace : c'.trace = c.trace := (h (.trace c.trace)).mp rfl
  have hsteps : c.maxSteps = c'.maxSteps := Option.ext fun limit => h (.maxSteps limit)
  cases c
  cases c'
  simp_all

private theorem holds_set_of_key_eq (c : Config) {t : Setting} (h : t.key = s.key) :
    (c.set t).Holds s ↔ t = s := by
  cases t <;> cases s
  case eof.eof => simp only [set, Holds, Setting.eof.injEq]
  case maxSteps.maxSteps => simp only [set, Holds, Setting.maxSteps.injEq, Option.some.injEq]
  case trace.trace => simp only [set, Holds, Setting.trace.injEq]
  all_goals
    simp only [Setting.key] at h
    exact absurd h (by decide)

private theorem holds_set_of_key_ne (c : Config) {t : Setting} (h : t.key ≠ s.key) :
    (c.set t).Holds s ↔ c.Holds s := by
  cases t <;> cases s
  case eof.eof => exact absurd rfl h
  case maxSteps.maxSteps => exact absurd rfl h
  case trace.trace => exact absurd rfl h
  all_goals exact Iff.rfl

private theorem inside_congr {ls' : List (List Char)} (hget : ∀ k < n, ls'[k]? = ls[k]?) :
    Inside ls' n ↔ Inside ls n := by
  constructor
  · intro ⟨m, header, hm, hfound, hheader, hlast⟩
    refine ⟨m, header, hm, hget m hm ▸ hfound, hheader, fun k other name hmk hk hother => ?_⟩
    exact hlast k other name hmk hk ((hget k hk).trans hother)
  · intro ⟨m, header, hm, hfound, hheader, hlast⟩
    refine ⟨m, header, hm, (hget m hm).trans hfound, hheader, fun k other name hmk hk hother => ?_⟩
    exact hlast k other name hmk hk (hget k hk ▸ hother)

private theorem inside_append (l : List Char) (hn : n ≤ ls.length) :
    Inside (ls ++ [l]) n ↔ Inside ls n :=
  inside_congr fun _ hk => List.getElem?_append_left (by omega)

theorem inside_take_iff : Inside (ls.take n) n ↔ Inside ls n :=
  inside_congr fun _ hk => List.getElem?_take_of_lt hk

/-- A header decides for the lines after it, and other lines decide nothing. -/
private theorem inside_succ_iff (l : List Char) : Inside (ls ++ [l]) (ls.length + 1) ↔
    IsHeader l sectionName ∨ (∀ name, ¬ IsHeader l name) ∧ Inside ls ls.length := by
  have hlast : (ls ++ [l])[ls.length]? = some l := List.getElem?_concat_length
  rw [← inside_append l le_rfl]
  constructor
  · intro ⟨m, header, hm, hfound, hheader, hafter⟩
    rcases Nat.lt_succ_iff_lt_or_eq.mp hm with hm | rfl
    · refine .inr ⟨fun name => hafter _ l name hm (Nat.lt_succ_self _) hlast, m, header, hm, hfound,
        hheader, fun k other name hmk hk => hafter k other name hmk (by omega)⟩
    · obtain rfl := Option.some.inj (hlast.symm.trans hfound)
      exact .inl hheader
  · rintro (hheader | ⟨hnone, m, header, hm, hfound, hheader, hafter⟩)
    · exact ⟨ls.length, l, Nat.lt_succ_self _, hlast, hheader, fun k _ _ hk hk' => by omega⟩
    · refine ⟨m, header, by omega, hfound, hheader, fun k other name hmk hk hother => ?_⟩
      rcases Nat.lt_succ_iff_lt_or_eq.mp hk with hk | rfl
      · exact hafter k other name hmk hk hother
      · obtain rfl := Option.some.inj (hlast.symm.trans hother)
        exact hnone name

theorem Effective.lt (h : Effective ls n line) : n < ls.length :=
  (List.getElem?_eq_some_iff.mp h.found).1

private theorem SetsAt.lt (h : SetsAt ls n s) : n < ls.length := by
  obtain ⟨_, h, _⟩ := h
  exact h.lt

private theorem FaultyAt.lt {problem : Problem} (h : FaultyAt ls n problem) : n < ls.length := by
  obtain ⟨_, h, _⟩ := h
  exact h.lt

private theorem effective_append_iff (l : List Char) : Effective (ls ++ [l]) n line ↔
    Effective ls n line ∨ n = ls.length ∧ line = l ∧ Plain l ∧ Inside ls ls.length := by
  have hlast : (ls ++ [l])[ls.length]? = some l := List.getElem?_concat_length
  constructor
  · intro h
    have hlt := h.lt
    rw [List.length_append, List.length_singleton] at hlt
    rcases Nat.lt_succ_iff_lt_or_eq.mp hlt with hn | rfl
    · refine .inl ⟨?_, h.plain, (inside_append l hn.le).mp h.inside⟩
      rw [← h.found, List.getElem?_append_left hn]
    · obtain rfl := Option.some.inj (hlast.symm.trans h.found)
      exact .inr ⟨rfl, rfl, h.plain, (inside_append _ le_rfl).mp h.inside⟩
  · rintro (h | ⟨rfl, rfl, hplain, hinside⟩)
    · refine ⟨?_, h.plain, (inside_append l h.lt.le).mpr h.inside⟩
      rw [← h.found, List.getElem?_append_left h.lt]
    · exact ⟨hlast, hplain, (inside_append _ le_rfl).mpr hinside⟩

private theorem exists_effective_append_iff {P : List Char → Prop} {l : List Char} :
    (∃ line, Effective (ls ++ [l]) n line ∧ P line) ↔ (∃ line, Effective ls n line ∧ P line) ∨
      n = ls.length ∧ Inside ls ls.length ∧ Plain l ∧ P l := by
  constructor
  · intro ⟨line, heffective, hline⟩
    rcases (effective_append_iff l).mp heffective with hold | ⟨rfl, rfl, hplain, hinside⟩
    · exact .inl ⟨line, hold, hline⟩
    · exact .inr ⟨rfl, hinside, hplain, hline⟩
  · rintro (⟨line, hold, hline⟩ | ⟨rfl, hinside, hplain, hline⟩)
    · exact ⟨line, (effective_append_iff l).mpr (.inl hold), hline⟩
    · exact ⟨l, (effective_append_iff l).mpr (.inr ⟨rfl, rfl, hplain, hinside⟩), hline⟩

namespace Draft
variable {d : Draft} {raw : List Char}

def said (d : Draft) (raw : List Char) : Option (Except Problem Setting) :=
  if d.active then (Line.read raw).verdict? else none

def take (d : Draft) (n : Nat) : Except Problem Setting → Draft
  | .ok s => { d with config := d.config.set s }
  | .error problem => d.warn n problem

/-- A line that counts is applied or reported. -/
theorem line_of_said {r : Except Problem Setting} (h : d.said raw = some r) :
    d.line n raw = d.take n r := by
  obtain ⟨hactive, hverdict⟩ := Option.ite_none_right_eq_some.mp h
  unfold line
  cases hread : Line.read raw with
  | skipped => rw [hread] at hverdict; cases hverdict
  | header name => rw [hread] at hverdict; cases hverdict
  | entry key value =>
    rw [hread] at hverdict
    have hr : Setting.read key value = r := Option.some.inj hverdict
    simp only [if_pos hactive, hr]
    rfl
  | bare =>
    rw [hread] at hverdict
    obtain rfl := Option.some.inj hverdict
    exact if_pos hactive

private theorem exists_line_of_not_said (h : d.said raw = none) :
    ∃ active, d.line n raw = { d with active := active } := by
  unfold said at h
  unfold line
  cases hread : Line.read raw with
  | skipped => exact ⟨d.active, rfl⟩
  | header name => exact ⟨_, rfl⟩
  | entry key value =>
    rw [hread] at h
    refine ⟨d.active, if_neg fun hactive => ?_⟩
    rw [if_pos hactive] at h
    cases h
  | bare =>
    rw [hread] at h
    refine ⟨d.active, if_neg fun hactive => ?_⟩
    rw [if_pos hactive] at h
    cases h

private theorem active_line_iff : (d.line n raw).active = true ↔
    IsHeader raw sectionName ∨ (∀ name, ¬ IsHeader raw name) ∧ d.active = true := by
  simp only [← Line.read_eq_header_iff]
  unfold line
  cases hread : Line.read raw with
  | skipped => simp
  | header name => simp
  | entry key value =>
    cases hactive : d.active with
    | false => simp [hactive]
    | true => cases h : Setting.read key value <;> simp [hactive, h, warn]
  | bare => cases hactive : d.active <;> simp [hactive, warn]

structure Describes (d : Draft) (ls : List (List Char)) : Prop where
  active : d.active = true ↔ Inside ls ls.length
  settings : ∀ s, d.config.Holds s ↔ LastSet ls s ∨ Unset ls s.key ∧ ({} : Config).Holds s
  ordered : d.warnings.toList.Pairwise (·.line < ·.line)
  warned : ∀ w, w ∈ d.warnings.toList ↔ ∃ n, w.line = n + 1 ∧ FaultyAt ls n w.problem

private theorem Describes.said_iff (h : d.Describes ls) {r : Except Problem Setting} :
    d.said raw = some r ↔ Inside ls ls.length ∧ (Line.read raw).verdict? = some r := by
  rw [said, Option.ite_none_right_eq_some, h.active]

/-- One more line that counts sets one more policy. -/
private theorem Describes.setsAt_append_iff (h : d.Describes ls) (raw : List Char) (n : Nat)
    (s : Setting) :
    SetsAt (ls ++ [raw]) n s ↔ SetsAt ls n s ∨ n = ls.length ∧ d.said raw = some (.ok s) := by
  rw [SetsAt, exists_effective_append_iff, h.said_iff, Line.verdict?_eq_ok_iff]
  rfl

private theorem Describes.faultyAt_append_iff (h : d.Describes ls) (raw : List Char) (n : Nat)
    (problem : Problem) : FaultyAt (ls ++ [raw]) n problem ↔
      FaultyAt ls n problem ∨ n = ls.length ∧ d.said raw = some (.error problem) := by
  rw [FaultyAt, exists_effective_append_iff, h.said_iff, Line.verdict?_eq_error_iff]
  rfl

private theorem describes_initial : initial.Describes [] where
  active := by
    constructor
    · intro h
      cases h
    · intro ⟨m, _, hm, _⟩
      exact absurd hm (Nat.not_lt_zero m)
  settings s := by
    have hunset : Unset [] s.key := fun n _ ⟨_, h, _⟩ => absurd h.lt (Nat.not_lt_zero n)
    constructor
    · intro h
      exact .inr ⟨hunset, h⟩
    · rintro (⟨n, ⟨_, h, _⟩, _⟩ | ⟨_, h⟩)
      · exact absurd h.lt (Nat.not_lt_zero n)
      · exact h
  ordered := List.Pairwise.nil
  warned w := by
    constructor
    · intro h
      cases h
    · intro ⟨n, _, _, h, _⟩
      exact absurd h.lt (Nat.not_lt_zero n)

private theorem Describes.settings_of_set (h : d.Describes ls) {ls' : List (List Char)}
    {t : Setting}
    (hsets : ∀ n s, SetsAt ls' n s ↔ SetsAt ls n s ∨ n = ls.length ∧ t = s) (s : Setting) :
    (d.config.set t).Holds s ↔ LastSet ls' s ∨ Unset ls' s.key ∧ ({} : Config).Holds s := by
  have hnew : SetsAt ls' ls.length t := (hsets _ _).mpr (.inr ⟨rfl, rfl⟩)
  by_cases hkey : t.key = s.key
  · rw [holds_set_of_key_eq _ hkey]
    constructor
    · rintro rfl
      refine .inl ⟨ls.length, hnew, fun m s' hm hs' => ?_⟩
      rcases (hsets m s').mp hs' with hold | ⟨rfl, _⟩
      · exact absurd hold.lt (by omega)
      · omega
    · rintro (⟨n, hs, hlast⟩ | ⟨hunset, _⟩)
      · rcases (hsets n s).mp hs with hold | ⟨_, rfl⟩
        · exact absurd hkey (hlast _ _ hold.lt hnew)
        · rfl
      · exact absurd hkey (hunset _ _ hnew)
  · rw [holds_set_of_key_ne _ hkey, h.settings]
    refine or_congr ?_ (and_congr_left' ?_)
    · constructor
      · intro ⟨n, hs, hlast⟩
        refine ⟨n, (hsets n s).mpr (.inl hs), fun m s' hm hs' => ?_⟩
        rcases (hsets m s').mp hs' with hold | ⟨_, rfl⟩
        · exact hlast m s' hm hold
        · exact hkey
      · intro ⟨n, hs, hlast⟩
        rcases (hsets n s).mp hs with hold | ⟨_, rfl⟩
        · exact ⟨n, hold, fun m s' hm hs' => hlast m s' hm ((hsets m s').mpr (.inl hs'))⟩
        · exact absurd rfl hkey
    · constructor
      · intro hunset n s' hs'
        rcases (hsets n s').mp hs' with hold | ⟨_, rfl⟩
        · exact hunset n s' hold
        · exact hkey
      · intro hunset n s' hs'
        exact hunset n s' ((hsets n s').mpr (.inl hs'))

private theorem Describes.ordered_warn (h : d.Describes ls) (problem : Problem) :
    (d.warn (ls.length + 1) problem).warnings.toList.Pairwise (·.line < ·.line) := by
  have hbelow : ∀ w ∈ d.warnings.toList, w.line < ls.length + 1 := by
    intro w hw
    obtain ⟨n, hn, hfaulty⟩ := (h.warned w).mp hw
    have := hfaulty.lt
    omega
  rw [warn, Array.toList_push, List.pairwise_append]
  exact ⟨h.ordered, List.pairwise_singleton _ _, fun w hw _ hnew =>
    List.mem_singleton.mp hnew ▸ hbelow w hw⟩

private theorem Describes.warned_of_faulty (h : d.Describes ls) {ls' : List (List Char)}
    {problem : Problem} (hfaulty : ∀ n problem', FaultyAt ls' n problem' ↔
      FaultyAt ls n problem' ∨ n = ls.length ∧ problem = problem') (w : Warning) :
    w ∈ (d.warn (ls.length + 1) problem).warnings.toList ↔
      ∃ n, w.line = n + 1 ∧ FaultyAt ls' n w.problem := by
  have hmem : w ∈ (d.warn (ls.length + 1) problem).warnings.toList ↔
      w ∈ d.warnings.toList ∨ w = ⟨ls.length + 1, problem⟩ := by
    simp [warn]
  rw [hmem, h.warned]
  constructor
  · rintro (⟨n, hn, hold⟩ | rfl)
    · exact ⟨n, hn, (hfaulty n _).mpr (.inl hold)⟩
    · exact ⟨ls.length, rfl, (hfaulty _ _).mpr (.inr ⟨rfl, rfl⟩)⟩
  · intro ⟨n, hn, hnew⟩
    rcases (hfaulty n _).mp hnew with hold | ⟨rfl, hproblem⟩
    · exact .inl ⟨n, hn, hold⟩
    · right
      cases w
      simp only at hn hproblem
      rw [hn, hproblem]

private theorem describes_line (h : d.Describes ls) :
    (d.line (ls.length + 1) raw).Describes (ls ++ [raw]) := by
  have hactive : (d.line (ls.length + 1) raw).active = true ↔
      Inside (ls ++ [raw]) (ls ++ [raw]).length := by
    rw [active_line_iff, h.active, List.length_append, List.length_singleton, inside_succ_iff]
  have hsets := h.setsAt_append_iff raw
  have hfaulty := h.faultyAt_append_iff raw
  cases hsaid : d.said raw with
  | none =>
    simp only [hsaid, reduceCtorEq, and_false, or_false] at hsets hfaulty
    obtain ⟨active, hline⟩ := exists_line_of_not_said (n := ls.length + 1) hsaid
    refine ⟨hactive, ?_, ?_, ?_⟩ <;> rw [hline]
    · simpa only [LastSet, Unset, hsets] using h.settings
    · exact h.ordered
    · simpa only [hfaulty] using h.warned
  | some r =>
    cases r with
    | ok t =>
      simp only [hsaid, Option.some.injEq, Except.ok.injEq, reduceCtorEq, and_false,
        or_false] at hsets hfaulty
      refine ⟨hactive, ?_, ?_, ?_⟩ <;> rw [line_of_said hsaid]
      · exact h.settings_of_set hsets
      · exact h.ordered
      · simp only [hfaulty]
        exact h.warned
    | error problem =>
      simp only [hsaid, Option.some.injEq, Except.error.injEq, reduceCtorEq, and_false,
        or_false] at hsets hfaulty
      refine ⟨hactive, ?_, ?_, ?_⟩ <;> rw [line_of_said hsaid]
      · simp only [LastSet, Unset, hsets]
        exact h.settings
      · exact h.ordered_warn problem
      · exact h.warned_of_faulty hfaulty

/-- The draft after all lines of a text. -/
theorem describes_foldl (ls : List (List Char)) :
    ((ls.zipIdx 1).foldl (fun d l => d.line l.2 l.1) initial).Describes ls := by
  induction ls using List.reverseRecOn with
  | nil => exact describes_initial
  | append_singleton ls raw ih =>
    rw [List.zipIdx_append, List.foldl_append, Nat.add_comm 1]
    exact describes_line ih

def ofLines (ls : List (List Char)) : Draft :=
  (ls.zipIdx 1).foldl (fun d l => d.line l.2 l.1) initial

theorem ofLines_concat (ls : List (List Char)) (raw : List Char) :
    ofLines (ls ++ [raw]) = (ofLines ls).line (ls.length + 1) raw := by
  rw [ofLines, List.zipIdx_append, List.foldl_append, Nat.add_comm 1]
  rfl

end Draft

private theorem header_of_same {ls' : List (List Char)}
    (hsame : ls'[n]? = ls[n]? ∨ Idle ls n ∧ Idle ls' n) {name : List Char}
    (hline : ls[n]? = some line) (hheader : IsHeader line name) : ls'[n]? = some line := by
  rcases hsame with h | ⟨hidle, _⟩
  · rw [h, hline]
  · exact absurd hheader ((hidle line hline).1 name)

/-- What counts does not depend on the lines that are idle. -/
private theorem Effective.of_same {ls' : List (List Char)}
    (hsame : ∀ n, ls'[n]? = ls[n]? ∨ Idle ls n ∧ Idle ls' n) (h : Effective ls n line) :
    Effective ls' n line := by
  refine ⟨?_, h.plain, ?_⟩
  · rcases hsame n with hn | ⟨hidle, _⟩
    · rw [hn, h.found]
    · exact absurd h (hidle line h.found).2
  · obtain ⟨m, header, hm, hfound, hheader, hlast⟩ := h.inside
    refine ⟨m, header, hm, header_of_same (hsame m) hfound hheader, hheader, ?_⟩
    intro k other name hmk hk hother hother'
    have hback := header_of_same ((hsame k).imp Eq.symm And.symm) hother hother'
    exact hlast k other name hmk hk hback hother'

/-- Warnings in strict order are known by what they are. -/
theorem Warning.eq_of_mem_iff {ws ws' : List Warning} (h : ws.Pairwise (·.line < ·.line))
    (h' : ws'.Pairwise (·.line < ·.line)) (hmem : ∀ w, w ∈ ws ↔ w ∈ ws') : ws = ws' := by
  have hne {us : List Warning} (hu : us.Pairwise (·.line < ·.line)) : us.Nodup :=
    hu.imp fun hlt heq => absurd hlt (by rw [heq]; exact lt_irrefl _)
  exact ((List.perm_ext_iff_of_nodup (hne h) (hne h')).mpr hmem).eq_of_pairwise
    (fun _ _ _ _ hab hba => absurd hab (lt_asymm hba)) h h'

/-- Lines that are idle can be replaced by others. -/
theorem parse_congr {text text' : List Char} (hsame : ∀ n,
    (lines text')[n]? = (lines text)[n]? ∨ Idle (lines text) n ∧ Idle (lines text') n) :
    parse text' = parse text := by
  have h := Draft.describes_foldl (lines text)
  have h' := Draft.describes_foldl (lines text')
  have heffective (n : Nat) (line : List Char) :
      Effective (lines text') n line ↔ Effective (lines text) n line :=
    ⟨.of_same fun k => (hsame k).imp Eq.symm And.symm, .of_same hsame⟩
  refine Prod.ext (eq_of_holds_iff fun s => ?_) (Warning.eq_of_mem_iff h'.ordered h.ordered fun w => ?_)
  · refine (h'.settings s).trans (Iff.trans ?_ (h.settings s).symm)
    simp only [LastSet, Unset, SetsAt, heffective]
  · refine (h'.warned w).trans (Iff.trans ?_ (h.warned w).symm)
    simp only [FaultyAt, heffective]

/-- A text is cut into lines at its line feeds, and its lines decide all. A policy holds if it is
the last one that is set under its key, or if it is the default and none is set; a fault takes
nothing back. There is one warning for each line that counts and sets nothing, in the order of the
lines, with the number that the line has among all lines. Lines that are neither headers nor count
do not matter at all. The two places where ends of a text are cut off cut it between characters. -/
theorem parse_meaning (text : List Char) :
    (['\n'].intercalate (lines text) = text ∧ ∀ line ∈ lines text, '\n' ∉ line) ∧
    (∀ s, (parse text).1.Holds s ↔
      LastSet (lines text) s ∨ Unset (lines text) s.key ∧ ({} : Config).Holds s) ∧
    (parse text).2.Pairwise (·.line < ·.line) ∧
    (∀ w, w ∈ (parse text).2 ↔ ∃ n, w.line = n + 1 ∧ FaultyAt (lines text) n w.problem) ∧
    (∀ n line, Effective (lines text) n line →
      ((∃ problem, Faulty line problem) ↔ ∀ s, ¬ Sets line s)) ∧
    (∀ text', (∀ n, (lines text')[n]? = (lines text)[n]? ∨
      Idle (lines text) n ∧ Idle (lines text') n) → parse text' = parse text) ∧
    (∀ line, line.head? = some '[' ∧ line.getLast? = some ']' →
      ∃ inner, headerName? line = some (Text.trim inner) ∧
        ∀ part, Text.IsSlice line 1 (Text.byteLength line - 1) part ↔ part = inner) ∧
    ∀ value, if 2 ≤ Text.byteLength value ∧ value.head? = some '"' ∧ value.getLast? = some '"' then
        ∀ part, Text.IsSlice value 1 (Text.byteLength value - 1) part ↔ part = unquote value
      else unquote value = value := by
  have h := Draft.describes_foldl (lines text)
  refine ⟨⟨intercalate_lines text, fun line => feed_notMem_of_mem_lines⟩, h.settings, h.ordered,
    h.warned, fun n line heffective => heffective.plain.faulty_iff, fun text' => parse_congr,
    fun line => exists_slice_of_header, fun value => ?_⟩
  split
  · rename_i hquoted
    exact slice_of_quoted hquoted.1 hquoted.2.1 hquoted.2.2
  · rename_i hquoted
    refine if_neg fun hchars => hquoted ?_
    exact ⟨hchars.1.trans (Text.length_le_byteLength value), hchars.2⟩

example : parse "[interpreter]\ntrace = \"true\"\n[else]\ntrace = false\n[ interpreter ]\ntrace = no".toList =
    ({ trace := true }, [⟨6, .invalidTrace "no"⟩]) := by decide

end ByteTape.Config
