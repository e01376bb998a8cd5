import ByteTape.Proofs.Config.Lines

/-! What a plain line means. It sets a policy if it assigns a value that is valid for its key, and
otherwise it has exactly one fault. -/
namespace ByteTape.Config

def Setting.key : Setting → String
  | .eof _ => "eof"
  | .maxSteps _ => "max_steps"
  | .trace _ => "trace"

def Setting.Written : Setting → List Char → Prop
  | .eof policy, value => (Text.trim value).map Char.toLower = policy.name.toList
  | .maxSteps limit, value => Text.Numeral.Denotes value limit
  | .trace on, value => value = (if on then "true" else "false").toList

def Sets (line : List Char) (s : Setting) : Prop :=
  ∃ value, Assigns line s.key.toList value ∧ s.Written value

inductive Reported (key value : List Char) : Problem → Prop
  | unknownKey (h : ∀ s : Setting, s.key.toList ≠ key) :
      Reported key value (.unknownKey (String.ofList key))
  | eof (h : key = "eof".toList) :
      Reported key value (.invalidEof (String.ofList ((Text.trim value).map Char.toLower)))
  | maxSteps {reason : Text.NumeralError} (h : key = "max_steps".toList)
      (hread : Text.Numeral.read value = .error reason) :
      Reported key value (.invalidMaxSteps (String.ofList value) reason)
  | trace (h : key = "trace".toList) : Reported key value (.invalidTrace (String.ofList value))

inductive Faulty (line : List Char) : Problem → Prop
  | noEquals (h : '=' ∉ Text.trim line) : Faulty line .noEquals
  | invalid {key value : List Char} {problem : Problem} (hline : Assigns line key value)
      (hvalue : ∀ s : Setting, s.key.toList = key → ¬ s.Written value)
      (hproblem : Reported key value problem) : Faulty line problem

private theorem ofList_eq_iff {cs : List Char} {t : String} :
    String.ofList cs = t ↔ cs = t.toList := by
  rw [← String.toList_inj, String.toList_ofList]

variable {line key value : List Char} {s : Setting} {problem : Problem}

private theorem ofName?_eq_some_iff {name : String} {policy : EofPolicy} :
    EofPolicy.ofName? name = some policy ↔ name = policy.name := by
  constructor
  · intro h
    unfold EofPolicy.ofName? at h
    split at h <;> cases h <;> rfl
  · rintro rfl
    cases policy <;> rfl

private theorem EofPolicy.read_eq_ok_iff {policy : EofPolicy} :
    EofPolicy.read value = .ok policy ↔ (Setting.eof policy).Written value := by
  have hword : (Setting.eof policy).Written value ↔
      EofPolicy.ofName? (String.ofList ((Text.trim value).map Char.toLower)) = some policy := by
    rw [ofName?_eq_some_iff, Setting.Written, ← String.toList_inj, String.toList_ofList]
  rw [hword]
  unfold EofPolicy.read
  dsimp only
  split <;> simp_all

private theorem read_eof : Setting.read "eof".toList value =
    (EofPolicy.read value).map Setting.eof := rfl

private theorem read_maxSteps : Setting.read "max_steps".toList value =
    match Text.Numeral.read value with
    | .ok limit => .ok (.maxSteps limit)
    | .error reason => .error (.invalidMaxSteps (String.ofList value) reason) := rfl

/-- Reading a value under a key finds the policy that it stands for. -/
theorem Setting.read_eq_ok_iff :
    Setting.read key value = .ok s ↔ key = s.key.toList ∧ s.Written value := by
  constructor
  · intro h
    unfold Setting.read at h
    split at h
    · rename_i hkey
      cases hread : EofPolicy.read value with
      | ok policy =>
        rw [hread] at h
        cases h
        exact ⟨ofList_eq_iff.mp hkey, EofPolicy.read_eq_ok_iff.mp hread⟩
      | error _ =>
        rw [hread] at h
        cases h
    · rename_i hkey
      split at h
      · rename_i limit hread
        cases h
        exact ⟨ofList_eq_iff.mp hkey, Text.Numeral.read_eq_ok_iff.mp hread⟩
      · cases h
    · rename_i hkey
      split at h
      · rename_i hvalue
        cases h
        exact ⟨ofList_eq_iff.mp hkey, ofList_eq_iff.mp hvalue⟩
      · rename_i hvalue
        cases h
        exact ⟨ofList_eq_iff.mp hkey, ofList_eq_iff.mp hvalue⟩
      · cases h
    · cases h
  · rintro ⟨rfl, hvalue⟩
    cases s with
    | eof policy =>
      change Setting.read "eof".toList value = _
      rw [read_eof, EofPolicy.read_eq_ok_iff.mpr hvalue]
      rfl
    | maxSteps limit =>
      change Setting.read "max_steps".toList value = _
      rw [read_maxSteps, Text.Numeral.read_eq_ok_iff.mpr hvalue]
    | trace on =>
      change value = _ at hvalue
      subst hvalue
      cases on <;> rfl

private theorem reported_of_read (h : Setting.read key value = .error problem) :
    Reported key value problem := by
  unfold Setting.read at h
  split at h
  · rename_i hkey
    unfold EofPolicy.read at h
    dsimp only at h
    split at h
    · cases h
    · cases h
      exact .eof (ofList_eq_iff.mp hkey)
  · rename_i hkey
    split at h
    · cases h
    · rename_i reason hread
      cases h
      exact .maxSteps (ofList_eq_iff.mp hkey) hread
  · rename_i hkey
    split at h
    · cases h
    · cases h
    · cases h
      exact .trace (ofList_eq_iff.mp hkey)
  · rename_i heof hsteps htrace
    cases h
    refine .unknownKey fun s hs => ?_
    cases s with
    | eof policy => exact heof (ofList_eq_iff.mpr hs.symm)
    | maxSteps limit => exact hsteps (ofList_eq_iff.mpr hs.symm)
    | trace on => exact htrace (ofList_eq_iff.mpr hs.symm)

private theorem Reported.unique {problem' : Problem} (h : Reported key value problem)
    (h' : Reported key value problem') : problem = problem' := by
  cases h with
  | unknownKey h =>
    cases h' with
    | unknownKey => rfl
    | eof hkey => exact absurd hkey.symm (h (.eof .error))
    | maxSteps hkey => exact absurd hkey.symm (h (.maxSteps 0))
    | trace hkey => exact absurd hkey.symm (h (.trace false))
  | eof h =>
    subst h
    cases h' with
    | unknownKey h => exact absurd rfl (h (.eof .error))
    | eof => rfl
    | maxSteps hkey => exact absurd hkey (by decide)
    | trace hkey => exact absurd hkey (by decide)
  | maxSteps h hread =>
    subst h
    cases h' with
    | unknownKey h => exact absurd rfl (h (.maxSteps 0))
    | eof hkey => exact absurd hkey (by decide)
    | maxSteps _ hread' => rw [Except.error.inj (hread.symm.trans hread')]
    | trace hkey => exact absurd hkey (by decide)
  | trace h =>
    subst h
    cases h' with
    | unknownKey h => exact absurd rfl (h (.trace false))
    | eof hkey => exact absurd hkey (by decide)
    | maxSteps hkey => exact absurd hkey (by decide)
    | trace => rfl

theorem Setting.read_eq_error_iff : Setting.read key value = .error problem ↔
    (∀ s : Setting, s.key.toList = key → ¬ s.Written value) ∧ Reported key value problem := by
  constructor
  · intro h
    refine ⟨fun s hkey hvalue => ?_, reported_of_read h⟩
    rw [Setting.read_eq_ok_iff.mpr ⟨hkey.symm, hvalue⟩] at h
    cases h
  · intro ⟨hvalue, hreported⟩
    cases h : Setting.read key value with
    | ok s =>
      obtain ⟨hkey, hwritten⟩ := Setting.read_eq_ok_iff.mp h
      exact absurd hwritten (hvalue s hkey.symm)
    | error other => rw [hreported.unique (reported_of_read h)]

def Line.verdict? : Line → Option (Except Problem Setting)
  | .entry key value => some (Setting.read key value)
  | .bare => some (.error .noEquals)
  | _ => none

private theorem Line.verdict?_eq_some_iff {r : Except Problem Setting} :
    (Line.read line).verdict? = some r ↔ Plain line ∧
      ((∃ key value, Assigns line key value ∧ Setting.read key value = r) ∨
        '=' ∉ Text.trim line ∧ r = .error .noEquals) := by
  constructor
  · intro h
    cases hread : Line.read line with
    | skipped => rw [hread] at h; cases h
    | header name => rw [hread] at h; cases h
    | entry key value =>
      rw [hread] at h
      obtain ⟨hplain, hassigns⟩ := Line.read_eq_entry_iff.mp hread
      exact ⟨hplain, .inl ⟨key, value, hassigns, Option.some.inj h⟩⟩
    | bare =>
      rw [hread] at h
      obtain ⟨hplain, hnot⟩ := Line.read_eq_bare_iff.mp hread
      exact ⟨hplain, .inr ⟨hnot, (Option.some.inj h).symm⟩⟩
  · rintro ⟨hplain, ⟨key, value, hassigns, hread⟩ | ⟨hnot, rfl⟩⟩
    · rw [Line.read_eq_entry_iff.mpr ⟨hplain, hassigns⟩, ← hread]
      rfl
    · rw [Line.read_eq_bare_iff.mpr ⟨hplain, hnot⟩]
      rfl

theorem Line.verdict?_eq_ok_iff :
    (Line.read line).verdict? = some (.ok s) ↔ Plain line ∧ Sets line s := by
  rw [verdict?_eq_some_iff]
  apply and_congr_right
  intro _
  constructor
  · rintro (⟨key, value, hassigns, hread⟩ | ⟨_, h⟩)
    · obtain ⟨rfl, hwritten⟩ := Setting.read_eq_ok_iff.mp hread
      exact ⟨value, hassigns, hwritten⟩
    · cases h
  · intro ⟨value, hassigns, hwritten⟩
    exact .inl ⟨s.key.toList, value, hassigns, Setting.read_eq_ok_iff.mpr ⟨rfl, hwritten⟩⟩

theorem Line.verdict?_eq_error_iff :
    (Line.read line).verdict? = some (.error problem) ↔ Plain line ∧ Faulty line problem := by
  rw [verdict?_eq_some_iff]
  apply and_congr_right
  intro _
  constructor
  · rintro (⟨key, value, hassigns, hread⟩ | ⟨hnot, h⟩)
    · obtain ⟨hvalue, hreported⟩ := Setting.read_eq_error_iff.mp hread
      exact .invalid hassigns hvalue hreported
    · cases h
      exact .noEquals hnot
  · rintro (hnot | ⟨hassigns, hvalue, hreported⟩)
    · exact .inr ⟨hnot, rfl⟩
    · exact .inl ⟨_, _, hassigns, Setting.read_eq_error_iff.mpr ⟨hvalue, hreported⟩⟩

private theorem Plain.exists_verdict (h : Plain line) :
    ∃ r, (Line.read line).verdict? = some r := by
  obtain ⟨hskipped, hheader⟩ := Line.plain_iff.mp h
  cases hread : Line.read line with
  | skipped => exact absurd hread hskipped
  | header name => exact absurd hread (hheader name)
  | entry key value => exact ⟨_, rfl⟩
  | bare => exact ⟨_, rfl⟩

/-- A plain line has a fault just if it sets nothing. -/
theorem Plain.faulty_iff (h : Plain line) :
    (∃ problem, Faulty line problem) ↔ ∀ s, ¬ Sets line s := by
  obtain ⟨r, hr⟩ := h.exists_verdict
  constructor
  · intro ⟨problem, hfaulty⟩ s hsets
    have hproblem := Line.verdict?_eq_error_iff.mpr ⟨h, hfaulty⟩
    rw [Line.verdict?_eq_ok_iff.mpr ⟨h, hsets⟩] at hproblem
    cases hproblem
  · intro hnot
    cases r with
    | ok s => exact absurd (Line.verdict?_eq_ok_iff.mp hr).2 (hnot s)
    | error problem => exact ⟨problem, (Line.verdict?_eq_error_iff.mp hr).2⟩

end ByteTape.Config
