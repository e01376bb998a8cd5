import ByteTape.Config.File
import ByteTape.Proofs.Text.Numeral
import ByteTape.Proofs.Text.Slice
import Mathlib.Data.List.TakeWhile

/-! What single lines say. A line is blank, a comment, the header of a section, or plain. A plain
line assigns a value to a key or has no equals sign, and it sets a policy or has a fault. -/
namespace ByteTape.Config

theorem lines_cons {c : Char} (hc : c ≠ '\n') {text line : List Char}
    {rest : List (List Char)} (h : lines text = line :: rest) :
    lines (c :: text) = (c :: line) :: rest := by
  have hcons : lines (c :: text) = _ := if_neg hc
  rw [hcons, ← lines, h]

/-- The text is divided at its line feeds. -/
theorem lines_eq_splitOn (text : List Char) : lines text = text.splitOn '\n' := by
  induction text with
  | nil => rfl
  | cons c text ih =>
    obtain ⟨line, rest, h⟩ := List.exists_cons_of_ne_nil (List.splitOn_ne_nil '\n' text)
    rw [List.splitOn_cons_eq_if_modifyHead]
    by_cases hc : c = '\n'
    · subst hc
      exact congrArg ([] :: ·) ih
    · rw [lines_cons hc (ih.trans h), h, if_neg (by simpa using hc)]
      rfl

theorem lines_ne_nil (text : List Char) : lines text ≠ [] := by
  rw [lines_eq_splitOn]
  exact List.splitOn_ne_nil '\n' text

/-- With a line feed between its lines a text is whole again. -/
theorem intercalate_lines (text : List Char) : ['\n'].intercalate (lines text) = text := by
  rw [lines_eq_splitOn, List.intercalate_splitOn]

/-- A text that is put together from lines has these lines. -/
theorem lines_intercalate {ls : List (List Char)} (hne : ls ≠ [])
    (h : ∀ line ∈ ls, '\n' ∉ line) : lines (['\n'].intercalate ls) = ls := by
  rw [lines_eq_splitOn, List.splitOn_intercalate '\n' h hne]

theorem lines_append (text rest : List Char) :
    lines (text ++ '\n' :: rest) = lines text ++ lines rest := by
  rw [lines_eq_splitOn, lines_eq_splitOn, lines_eq_splitOn, List.splitOn_append_cons_self]

theorem feed_notMem_of_mem_lines {text line : List Char} (h : line ∈ lines text) : '\n' ∉ line := by
  induction text generalizing line with
  | nil =>
    obtain rfl := List.mem_singleton.mp h
    exact List.not_mem_nil
  | cons c text ih =>
    obtain ⟨first, rest, hl⟩ := List.exists_cons_of_ne_nil (lines_ne_nil text)
    by_cases hc : c = '\n'
    · subst hc
      rcases List.mem_cons.mp h with rfl | h
      · exact List.not_mem_nil
      · exact ih h
    · rw [lines_cons hc hl] at h
      rw [hl] at ih
      rcases List.mem_cons.mp h with rfl | h
      · have := ih List.mem_cons_self
        simp [Ne.symm hc, this]
      · exact ih (List.mem_cons_of_mem _ h)

def IsHeader (line name : List Char) : Prop :=
  ∃ inner, Text.trim line = '[' :: (inner ++ [']']) ∧ name = Text.trim inner

structure Plain (line : List Char) : Prop where
  filled : Text.trim line ≠ []
  uncommented : (Text.trim line).head? ≠ some '#'
  headless : ∀ name, ¬ IsHeader line name

def Unquoted (raw value : List Char) : Prop :=
  raw = '"' :: (value ++ ['"']) ∨ raw = value ∧ ∀ inner, raw ≠ '"' :: (inner ++ ['"'])

def Assigns (line key value : List Char) : Prop :=
  ∃ before after, Text.trim line = before ++ '=' :: after ∧ '=' ∉ before ∧
    key = Text.trim before ∧ Unquoted (Text.trim after) value

private theorem headerName?_eq_some_iff {line name : List Char} : headerName? line = some name ↔
    ∃ inner, line = '[' :: (inner ++ [']']) ∧ name = Text.trim inner := by
  constructor
  · intro h
    obtain ⟨⟨hfirst, hlast⟩, hname⟩ := Option.ite_none_right_eq_some.mp h
    exact ⟨_, Text.exists_inner hfirst hlast (.inl (by decide)), (Option.some.inj hname).symm⟩
  · rintro ⟨inner, rfl, rfl⟩
    simp [headerName?]

theorem splitEquals_eq_some_iff {line before after : List Char} :
    splitEquals line = some (before, after) ↔ line = before ++ '=' :: after ∧ '=' ∉ before := by
  have hsplit := List.takeWhile_append_dropWhile (p := (· ≠ '=')) (l := line)
  have hbefore : '=' ∉ line.takeWhile (· ≠ '=') := fun h => by
    have := List.mem_takeWhile_imp h
    simp at this
  constructor
  · intro h
    unfold splitEquals at h
    split at h
    · cases h
    · rename_i c value hdrop
      obtain rfl : c = '=' := by
        have hhead := List.head?_dropWhile_not (· ≠ '=') line
        rw [hdrop] at hhead
        simpa using hhead
      cases h
      rw [hdrop] at hsplit
      exact ⟨hsplit.symm, hbefore⟩
  · rintro ⟨rfl, hnot⟩
    have hall : ∀ c ∈ before, decide (c ≠ '=') = true := fun c hc =>
      decide_eq_true fun h => hnot (h ▸ hc)
    unfold splitEquals
    rw [List.dropWhile_append_of_pos hall, List.takeWhile_append_of_pos hall]
    simp

private theorem splitEquals_eq_none_iff {line : List Char} :
    splitEquals line = none ↔ '=' ∉ line := by
  have hdrop : splitEquals line = none ↔ line.dropWhile (· ≠ '=') = [] := by
    unfold splitEquals
    split <;> simp_all
  rw [hdrop, List.dropWhile_eq_nil_iff]
  constructor
  · intro h hmem
    simpa using h '=' hmem
  · intro h c hc
    exact decide_eq_true fun he => h (he ▸ hc)

/-- The test for both quotes is right for one quote alone too. -/
theorem quoted_iff {raw : List Char} :
    (2 ≤ raw.length ∧ raw.head? = some '"' ∧ raw.getLast? = some '"') ↔
      ∃ inner, raw = '"' :: (inner ++ ['"']) := by
  constructor
  · intro ⟨hlength, hfirst, hlast⟩
    exact ⟨_, Text.exists_inner hfirst hlast (.inr hlength)⟩
  · rintro ⟨inner, rfl⟩
    simp

@[simp] theorem unquote_quoted (inner : List Char) : unquote ('"' :: (inner ++ ['"'])) = inner := by
  simp [unquote]

theorem unquote_eq_iff {raw value : List Char} : unquote raw = value ↔ Unquoted raw value := by
  by_cases hq : ∃ inner, raw = '"' :: (inner ++ ['"'])
  · obtain ⟨inner, rfl⟩ := hq
    rw [unquote_quoted]
    constructor
    · rintro rfl
      exact .inl rfl
    · rintro (h | ⟨_, h⟩)
      · simpa using h
      · exact absurd rfl (h inner)
  · have hraw : unquote raw = raw := if_neg (mt quoted_iff.mp hq)
    rw [hraw]
    constructor
    · rintro rfl
      exact .inr ⟨rfl, fun inner h => hq ⟨inner, h⟩⟩
    · rintro (h | ⟨h, _⟩)
      · exact absurd ⟨value, h⟩ hq
      · exact h

/-- The brackets of a header can be cut off. -/
theorem exists_slice_of_header {line : List Char}
    (h : line.head? = some '[' ∧ line.getLast? = some ']') :
    ∃ inner, headerName? line = some (Text.trim inner) ∧
      ∀ part, Text.IsSlice line 1 (Text.byteLength line - 1) part ↔ part = inner := by
  obtain ⟨inner, rfl⟩ : ∃ inner, line = '[' :: (inner ++ [']']) :=
    ⟨_, Text.exists_inner h.1 h.2 (.inl (by decide))⟩
  exact ⟨inner, headerName?_eq_some_iff.mpr ⟨inner, rfl, rfl⟩, fun _ =>
    Text.isSlice_inner_iff rfl rfl⟩

/-- And so can two quotes. One quote alone has one byte. -/
theorem slice_of_quoted {value : List Char} (hlength : 2 ≤ Text.byteLength value)
    (hfirst : value.head? = some '"') (hlast : value.getLast? = some '"') (part : List Char) :
    Text.IsSlice value 1 (Text.byteLength value - 1) part ↔ part = unquote value := by
  have htwo : 2 ≤ value.length := by
    match value with
    | [] => cases hfirst
    | [c] =>
      obtain rfl := Option.some.inj hfirst
      exact absurd hlength (by decide)
    | _ :: _ :: _ => simp
  obtain ⟨inner, rfl⟩ := quoted_iff.mp ⟨htwo, hfirst, hlast⟩
  rw [unquote_quoted, Text.isSlice_inner_iff rfl rfl]

namespace Line

variable {raw key value name : List Char}

theorem read_eq_header_iff : read raw = .header name ↔ IsHeader raw name := by
  unfold read IsHeader
  rw [← headerName?_eq_some_iff]
  dsimp only
  split
  · rename_i h
    simp only [reduceCtorEq, false_iff]
    intro hname
    obtain ⟨inner, htrim, _⟩ := headerName?_eq_some_iff.mp hname
    simp [htrim] at h
  · split
    · rename_i h
      rw [h]
      simp
    · rename_i h
      rw [h]
      split <;> simp

/-- Plain lines are what is left when blank lines, comments and headers are gone. -/
private theorem read_of_plain (h : Plain raw) : read raw = match splitEquals (Text.trim raw) with
    | some (key, value) => .entry (Text.trim key) (unquote (Text.trim value))
    | none => .bare := by
  have hname : headerName? (Text.trim raw) = none := by
    rw [Option.eq_none_iff_forall_ne_some]
    exact fun name hname => h.headless name (headerName?_eq_some_iff.mp hname)
  have hskip : ¬ (Text.trim raw = [] ∨ (Text.trim raw).head? = some '#') :=
    not_or.mpr ⟨h.filled, h.uncommented⟩
  have hread : read raw = _ := if_neg hskip
  rw [hname] at hread
  exact hread

theorem plain_iff : Plain raw ↔ read raw ≠ .skipped ∧ ∀ name, read raw ≠ .header name := by
  constructor
  · intro h
    refine ⟨?_, fun name hname => h.headless name (read_eq_header_iff.mp hname)⟩
    rw [read_of_plain h]
    split <;> exact Line.noConfusion
  · intro ⟨hskip, hheader⟩
    have hfilled : ¬ (Text.trim raw = [] ∨ (Text.trim raw).head? = some '#') := by
      intro h
      apply hskip
      simp only [read, if_pos h]
    rw [not_or] at hfilled
    exact ⟨hfilled.1, hfilled.2, fun name h => hheader name (read_eq_header_iff.mpr h)⟩

theorem read_eq_entry_iff : read raw = .entry key value ↔ Plain raw ∧ Assigns raw key value := by
  have hassigns (h : Plain raw) : read raw = .entry key value ↔ Assigns raw key value := by
    rw [read_of_plain h, Assigns]
    constructor
    · intro h
      split at h
      · rename_i before after hsplit
        obtain ⟨rfl, hvalue⟩ := Line.entry.inj h
        obtain ⟨hline, hbefore⟩ := splitEquals_eq_some_iff.mp hsplit
        exact ⟨before, after, hline, hbefore, rfl, unquote_eq_iff.mp hvalue⟩
      · cases h
    · rintro ⟨before, after, hline, hbefore, rfl, hvalue⟩
      rw [splitEquals_eq_some_iff.mpr ⟨hline, hbefore⟩]
      exact congrArg _ (unquote_eq_iff.mpr hvalue)
  constructor
  · intro h
    have hplain : Plain raw := plain_iff.mpr (by simp [h])
    exact ⟨hplain, (hassigns hplain).mp h⟩
  · intro ⟨hplain, h⟩
    exact (hassigns hplain).mpr h

theorem read_eq_bare_iff : read raw = .bare ↔ Plain raw ∧ '=' ∉ Text.trim raw := by
  have hbare (h : Plain raw) : read raw = .bare ↔ '=' ∉ Text.trim raw := by
    rw [read_of_plain h, ← splitEquals_eq_none_iff]
    split
    · rename_i hsplit
      simp [hsplit]
    · rename_i hsplit
      simp [hsplit]
  constructor
  · intro h
    have hplain : Plain raw := plain_iff.mpr (by simp [h])
    exact ⟨hplain, (hbare hplain).mp h⟩
  · intro ⟨hplain, h⟩
    exact (hbare hplain).mpr h

end Line
end ByteTape.Config
