import ByteTape.Proofs.Config.Meaning

/-! The limit of steps in a configuration. A line that counts sets it to the number that its value
denotes. A value that denotes none leaves it as it was and is reported once, with the reason. -/
namespace ByteTape.Config
open Text.Numeral

variable {ls : List (List Char)} {text line value : List Char} {n : Nat}

private theorem Effective.ofLines_succ (h : Effective ls n line) {r : Except Problem Setting}
    (hr : (Line.read line).verdict? = some r) :
    Draft.ofLines (ls.take (n + 1)) = (Draft.ofLines (ls.take n)).take (n + 1) r := by
  have hlength : (ls.take n).length = n := List.length_take_of_le h.lt.le
  have htake : ls.take (n + 1) = ls.take n ++ [line] := by
    rw [List.take_add_one, h.found]
    rfl
  have hactive : (Draft.ofLines (ls.take n)).active = true := by
    have hinside := (Draft.describes_foldl (ls.take n)).active
    rw [hlength, inside_take_iff] at hinside
    exact hinside.mpr h.inside
  have hsaid : (Draft.ofLines (ls.take n)).said line = some r := (if_pos hactive).trans hr
  rw [htake, Draft.ofLines_concat, hlength, Draft.line_of_said hsaid]

private theorem Effective.mem_warnings_iff (h : Effective (lines text) n line) {w : Warning} :
    w ∈ (parse text).2 ∧ w.line = n + 1 ↔
      w.line = n + 1 ∧ (Line.read line).verdict? = some (.error w.problem) := by
  have hwarned : w ∈ (parse text).2 ↔ _ := (Draft.describes_foldl (lines text)).warned w
  rw [hwarned, and_comm]
  apply and_congr_right
  intro hn
  rw [Line.verdict?_eq_error_iff]
  constructor
  · intro ⟨m, hm, line', h', hfaulty⟩
    obtain rfl : m = n := by omega
    obtain rfl := Option.some.inj (h'.found.symm.trans h.found)
    exact ⟨h.plain, hfaulty⟩
  · intro ⟨_, hfaulty⟩
    exact ⟨n, hn, line, h, hfaulty⟩

def Warning.ofVerdict (n : Nat) : Except Problem Setting → List Warning
  | .ok _ => []
  | .error problem => [⟨n, problem⟩]

private theorem Effective.warnings_eq (h : Effective (lines text) n line)
    {r : Except Problem Setting} (hr : (Line.read line).verdict? = some r) :
    (parse text).2.filter (·.line = n + 1) = Warning.ofVerdict (n + 1) r := by
  have hordered : (parse text).2.Pairwise (·.line < ·.line) :=
    (Draft.describes_foldl (lines text)).ordered
  apply Warning.eq_of_mem_iff (hordered.filter _)
  · cases r with
    | ok s => exact .nil
    | error problem => exact List.pairwise_singleton _ _
  · intro w
    rw [List.mem_filter, decide_eq_true_eq, h.mem_warnings_iff, hr]
    cases r with
    | ok s => simp [Warning.ofVerdict]
    | error problem =>
      cases w
      simp [Warning.ofVerdict, eq_comm]

private theorem read_of_denotes {limit : Nat} (h : Denotes value limit) :
    Setting.read "max_steps".toList value = .ok (.maxSteps limit) :=
  Setting.read_eq_ok_iff.mpr ⟨rfl, h⟩

private theorem read_of_not_denotes (h : ∀ limit, ¬ Denotes value limit) :
    Setting.read "max_steps".toList value =
      .error (.invalidMaxSteps (String.ofList value) (fault value)) := by
  refine Setting.read_eq_error_iff.mpr ⟨fun s hkey hwritten => ?_, .maxSteps rfl ?_⟩
  · cases s with
    | eof _ => exact absurd hkey (by simp [Setting.key])
    | maxSteps limit => exact h limit hwritten
    | trace _ => exact absurd hkey (by simp [Setting.key])
  · exact read_eq_error_iff.mpr ⟨h, rfl⟩

/-- The value of a line is what stands behind the first equals sign, without quotes. -/
private theorem Assigns.value_eq {key before after : List Char} (h : Assigns line key value)
    (hline : Text.trim line = before ++ '=' :: after) (hbefore : '=' ∉ before) :
    value = unquote (Text.trim after) := by
  obtain ⟨before', after', hline', hbefore', _, hvalue⟩ := h
  have hsplit := splitEquals_eq_some_iff.mpr ⟨hline, hbefore⟩
  rw [splitEquals_eq_some_iff.mpr ⟨hline', hbefore'⟩] at hsplit
  cases hsplit
  exact (unquote_eq_iff.mpr hvalue).symm

private theorem unquote_toDigits (limit : Nat) :
    unquote (Nat.toDigits 10 limit) = Nat.toDigits 10 limit := by
  refine unquote_eq_iff.mpr (.inr ⟨rfl, fun inner h => ?_⟩)
  have hquote : '"' ∈ Nat.toDigits 10 limit := h ▸ List.mem_cons_self
  exact absurd (Nat.isDigit_of_mem_toDigits (by decide) le_rfl hquote) (by decide)

private theorem fault_message (text : List Char) :
    ((fault text).message = "cannot parse integer from empty string" ↔ text = []) ∧
    ((fault text).message = "number too large to fit in target type" ↔ bound ≤ leading text) ∧
    ((fault text).message = "invalid digit found in string" ↔
      text ≠ [] ∧ leading text < bound) := by
  have hbound : 0 < bound := Nat.pow_pos (by decide)
  unfold fault
  by_cases hnil : text = []
  · subst hnil
    have hzero : leading [] = 0 := rfl
    simp [Text.NumeralError.message, hzero, hbound, Nat.ne_of_gt hbound]
  · by_cases hlarge : bound ≤ leading text
    · simp [Text.NumeralError.message, hnil, hlarge]
    · simp [Text.NumeralError.message, hnil, hlarge, not_le.mp hlarge]

/-- A line that counts and assigns a value to `max_steps` sets the limit just if the value is one plus
sign at most, and then digits, for a number below the bound; the limit is that number then, and no
warning is about the line. Of any other value there is one warning and no other change. It says that
the value is empty; or that it is too large, just if the digits at its head alone are, whatever
follows them; or that there is no digit where one is due. The decimal text of every number below the
bound is a value that denotes it, in quotes or not. -/
theorem maxSteps_of_line (h : Effective (lines text) n line)
    (hvalue : Assigns line "max_steps".toList value) :
    let before := Draft.ofLines ((lines text).take n)
    let after := Draft.ofLines ((lines text).take (n + 1))
    let warnings := (parse text).2.filter (·.line = n + 1)
    (∀ limit, Denotes value limit ↔
      after = { before with config := { before.config with maxSteps := some limit } }) ∧
    (∀ limit, Denotes value limit → warnings = []) ∧
    ((∀ limit, ¬ Denotes value limit) → ∃ reason,
      after = before.warn (n + 1) (.invalidMaxSteps (String.ofList value) reason) ∧
      warnings = [⟨n + 1, .invalidMaxSteps (String.ofList value) reason⟩] ∧
      (reason.message = "cannot parse integer from empty string" ↔ value = []) ∧
      (reason.message = "number too large to fit in target type" ↔ bound ≤ leading value) ∧
      (reason.message = "invalid digit found in string" ↔ value ≠ [] ∧ leading value < bound)) ∧
    (∀ limit key rest, limit < bound → Text.trim line = key ++ '=' :: rest → '=' ∉ key →
      Text.trim rest = Nat.toDigits 10 limit ∨
        Text.trim rest = '"' :: (Nat.toDigits 10 limit ++ ['"']) → Denotes value limit) := by
  intro before after warnings
  have hverdict : (Line.read line).verdict? = some (Setting.read "max_steps".toList value) := by
    rw [Line.read_eq_entry_iff.mpr ⟨h.plain, hvalue⟩]
    rfl
  have hafter : after = before.take (n + 1) (Setting.read "max_steps".toList value) :=
    h.ofLines_succ hverdict
  have hwarnings : warnings = _ := h.warnings_eq hverdict
  refine ⟨fun limit => ⟨fun hlimit => ?_, fun hlimit => ?_⟩, fun limit hlimit => ?_, fun hnone => ?_,
    fun limit key rest hlimit hline hkey hrest => ?_⟩
  · rw [hafter, read_of_denotes hlimit]
    rfl
  · by_contra hno
    cases hread : Text.Numeral.read value with
    | ok limit' =>
      have hlimit' := read_eq_ok_iff.mp hread
      rw [hafter, read_of_denotes hlimit'] at hlimit
      have heq : some limit' = some limit := congrArg (·.config.maxSteps) hlimit
      exact hno (Option.some.inj heq ▸ hlimit')
    | error reason =>
      have hnone := (read_eq_error_iff.mp hread).1
      rw [hafter, read_of_not_denotes hnone] at hlimit
      have hsize := congrArg (·.warnings.size) hlimit
      simp [Draft.take, Draft.warn] at hsize
  · rw [hwarnings, read_of_denotes hlimit]
    rfl
  · refine ⟨fault value, ?_, ?_, fault_message value⟩
    · rw [hafter, read_of_not_denotes hnone]
      rfl
    · rw [hwarnings, read_of_not_denotes hnone]
      rfl
  · have hunquoted : value = Nat.toDigits 10 limit := by
      rw [hvalue.value_eq hline hkey]
      rcases hrest with hrest | hrest <;> rw [hrest]
      · exact unquote_toDigits limit
      · exact unquote_quoted _
    exact hunquoted ▸ denotes_toDigits hlimit

/-- The number is too large by its last digit, and the letter after it is not reached. -/
theorem too_large_before_letter :
    let text := "[interpreter]\nmax_steps = \"18446744073709551616x\"".toList
    let line := "max_steps = \"18446744073709551616x\"".toList
    let value := "18446744073709551616x".toList
    Effective (lines text) 1 line ∧ Assigns line "max_steps".toList value ∧
      (∀ limit, ¬ Denotes value limit) ∧ ∃ reason,
        (parse text).2.filter (·.line = 2) = [⟨2, .invalidMaxSteps (String.ofList value) reason⟩] ∧
        reason.message = "number too large to fit in target type" := by
  intro text line value
  obtain ⟨hplain, hassigns⟩ : Plain line ∧ Assigns line "max_steps".toList value :=
    Line.read_eq_entry_iff.mp (by decide)
  have heffective : Effective (lines text) 1 line :=
    ⟨by decide, hplain, 0, "[interpreter]".toList, by decide, by decide,
      Line.read_eq_header_iff.mp (by decide), fun k _ _ hk hk' => by omega⟩
  have hnone : ∀ limit, ¬ Denotes value limit :=
    (read_eq_error_iff.mp (show read value = .error .tooLarge by decide)).1
  obtain ⟨reason, _, hwarnings, _, hlarge, _⟩ :=
    (maxSteps_of_line heffective hassigns).2.2.1 hnone
  exact ⟨heffective, hassigns, hnone, reason, hwarnings, hlarge.mpr (by decide)⟩

end ByteTape.Config
