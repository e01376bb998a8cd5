import ByteTape.Proofs.Machine.Table
import ByteTape.Proofs.Text.Reading

/-! The step table read back. A number is told from its padding by its digits, and the symbol is
the one character between two bars, so that each line gives its row again, and the whole text the
list of rows. -/
namespace ByteTape
namespace Trace

structure Row.OneLine (r : Row) : Prop where
  symbol : r.symbol ≠ '\n'
  action : '\n' ∉ r.action.toList

def column (line : List Char) : Nat × List Char :=
  (Nat.ofDigitChars 10 (line.takeWhile Char.isDigit) 0,
    ((line.dropWhile Char.isDigit).dropWhile (· == ' ')).drop 2)

def Row.ofLine? (line : List Char) : Option Row :=
  let (step, line) := column line
  let (ip, line) := column line
  let (pointer, line) := column line
  let (cell, line) := column line
  match line with
  | _ :: symbol :: line =>
    some ⟨step, ip, pointer, .ofNat cell, symbol, .ofList (line.drop "    | ".toList.length)⟩
  | _ => none

def read (bytes : List UInt8) : Option (List Row) := do
  let text ← Text.Utf8.decode? bytes
  ((text.splitOn '\n').drop 2).dropLast.mapM Row.ofLine?

private theorem toList_padRight (width n : Nat) : ∃ k, (padRight width (toString n)).toList =
    Nat.toDigits 10 n ++ List.replicate k ' ' := by
  have hdigits : toString n = String.ofList (Nat.toDigits 10 n) := Nat.repr_eq_ofList_toDigits
  refine ⟨width - (toString n).length, ?_⟩
  rw [padRight, String.toList_append, String.toList_ofList, hdigits, String.toList_ofList]

private theorem column_padRight (width n : Nat) (rest : List Char) :
    column ((padRight width (toString n)).toList ++ ' ' :: '|' :: ' ' :: rest) = (n, rest) := by
  obtain ⟨k, hk⟩ := toList_padRight width n
  have hdigits : ∀ c ∈ Nat.toDigits 10 n, c.isDigit = true := fun _ =>
    Nat.isDigit_of_mem_toDigits (by decide) (Nat.le_refl 10)
  have hspaces : ∀ c ∈ List.replicate (k + 1) ' ', (c == ' ') = true := by simp
  have hline : (padRight width (toString n)).toList ++ ' ' :: '|' :: ' ' :: rest =
      Nat.toDigits 10 n ++ (List.replicate (k + 1) ' ' ++ '|' :: ' ' :: rest) := by
    rw [hk, List.replicate_succ', List.append_assoc, List.append_assoc]
    rfl
  have hstop : ∀ line, (List.replicate (k + 1) ' ' ++ line).takeWhile Char.isDigit = [] ∧
      (List.replicate (k + 1) ' ' ++ line).dropWhile Char.isDigit =
        List.replicate (k + 1) ' ' ++ line := fun _ => ⟨rfl, rfl⟩
  rw [column, hline, List.takeWhile_append_of_pos hdigits, List.dropWhile_append_of_pos hdigits,
    (hstop _).1, (hstop _).2, List.append_nil, Nat.ofDigitChars_ten_toDigits,
    List.dropWhile_append_of_pos hspaces]
  rfl

private theorem toList_text (r : Row) : r.text.toList =
    (padRight 4 (toString r.step)).toList ++ ' ' :: '|' :: ' ' ::
      ((padRight 3 (toString r.ip)).toList ++ ' ' :: '|' :: ' ' ::
        ((padRight 3 (toString r.pointer)).toList ++ ' ' :: '|' :: ' ' ::
          ((padRight 4 (toString r.cell.toNat)).toList ++ ' ' :: '|' :: ' ' ::
            (' ' :: r.symbol :: ("    | ".toList ++ r.action.toList))))) := by
  have hbar : " | ".toList = [' ', '|', ' '] := rfl
  have hwide : " |  ".toList = [' ', '|', ' ', ' '] := rfl
  have hcell : toString r.cell = toString r.cell.toNat := rfl
  simp only [Row.text, String.toList_append, hbar, hwide, hcell]
  simp

/-- The six fields of a row are read back from its line. -/
theorem ofLine?_text (r : Row) : Row.ofLine? r.text.toList = some r := by
  have haction : ("    | ".toList ++ r.action.toList).drop "    | ".toList.length =
      r.action.toList := List.drop_left
  simp only [Row.ofLine?, toList_text, column_padRight, haction, UInt8.ofNat_toNat,
    String.ofList_toList]

private theorem lineFeed_not_mem_padRight (width n : Nat) :
    '\n' ∉ (padRight width (toString n)).toList := by
  obtain ⟨k, hk⟩ := toList_padRight width n
  rw [hk, List.mem_append, not_or]
  constructor
  · intro h
    have hdigit := Nat.isDigit_of_mem_toDigits (by decide) (Nat.le_refl 10) h
    exact absurd hdigit (by decide)
  · intro h
    exact absurd (List.eq_of_mem_replicate h) (by decide)

private theorem Row.OneLine.text {r : Row} (h : r.OneLine) : '\n' ∉ r.text.toList := by
  have hbar : '\n' ∉ "    | ".toList := by decide
  have hmarks : '\n' ≠ ' ' ∧ '\n' ≠ '|' := by decide
  simp only [toList_text, List.mem_append, List.mem_cons, lineFeed_not_mem_padRight, hbar,
    h.action, Ne.symm h.symbol, hmarks.1, hmarks.2, or_self, not_false_eq_true]

def lines (rows : List Row) : List (List Char) :=
  if rows = [] then []
  else header.toList :: rule.toList :: rows.map fun r => r.text.toList

private theorem table_eq_encode (rows : List Row) :
    table false rows = Text.Utf8.encode ((lines rows).flatMap (· ++ ['\n'])) := by
  cases rows with
  | nil => rfl
  | cons r rows =>
    simp [table, lines, lineBytes_eq_encode, Text.Utf8.encode, List.flatMap_assoc,
      List.flatMap_map]

private theorem lineFeed_not_mem_lines {rows : List Row} (h : ∀ r ∈ rows, r.OneLine)
    {line : List Char} (hline : line ∈ lines rows) : '\n' ∉ line := by
  unfold lines at hline
  split at hline
  · cases hline
  · rcases List.mem_cons.mp hline with rfl | hline
    · decide
    · rcases List.mem_cons.mp hline with rfl | hline
      · decide
      · obtain ⟨r, hr, rfl⟩ := List.mem_map.mp hline
        exact (h r hr).text

/-- Lines that are all ended are the pieces between line feeds, before a last empty one. -/
private theorem splitOn_flatMap {ls : List (List Char)} (h : ∀ line ∈ ls, '\n' ∉ line) :
    (ls.flatMap (· ++ ['\n'])).splitOn '\n' = ls ++ [[]] := by
  induction ls with
  | nil => rfl
  | cons line ls ih =>
    have hrest := ih fun l hl => h l (List.mem_cons_of_mem _ hl)
    rw [List.flatMap_cons, List.append_assoc, List.singleton_append,
      List.splitOn_append_cons_self, List.splitOn_eq_singleton (h line List.mem_cons_self), hrest]
    rfl

private theorem mapM_ofLine? (rows : List Row) :
    (rows.map fun r => r.text.toList).mapM Row.ofLine? = some rows := by
  induction rows with
  | nil => rfl
  | cons r rows ih => simp [ofLine?_text, ih]

/-- The rows are read back from their table. -/
theorem read_table {rows : List Row} (h : ∀ r ∈ rows, r.OneLine) :
    read (table false rows) = some rows := by
  have hsplit := splitOn_flatMap fun _ => lineFeed_not_mem_lines h
  have hlines : ((lines rows ++ [[]]).drop 2).dropLast = rows.map fun r => r.text.toList := by
    cases rows with
    | nil => rfl
    | cons r rows => exact List.dropLast_concat
  rw [read, table_eq_encode, Text.Utf8.decode?_encode]
  simp only [Option.bind_eq_bind, Option.bind_some, hsplit, hlines, mapM_ofLine?]

end Trace

namespace Tracer
open Trace
variable {t : Tracer} {rows : List Row}

def tabulate (t : Tracer) : List Row → Tracer × Except StreamError Unit
  | [] => (t, .ok ())
  | r :: rows =>
    match t.row r with
    | (t, .ok ()) => t.tabulate rows
    | failed => failed

private theorem tabulate_of_sturdy (h : t.sink.Sturdy) (rows : List Row) :
    ∃ t', t.tabulate rows = (t', .ok ()) ∧ Wrote rows t t' := by
  induction rows generalizing t with
  | nil => exact ⟨t, rfl, wrote_nil h⟩
  | cons r rows ih =>
    obtain ⟨u, hrow, hfirst⟩ := row_of_sturdy h r
    obtain ⟨v, hrest, hothers⟩ := ih hfirst.sturdy
    exact ⟨v, by simp only [tabulate, hrow, hrest], hfirst.trans hothers⟩

end Tracer

namespace Trace

/-- The table of a new tracer tells its rows from all others. On a device that never fails every
row is written, and takes one line below the header and the rule. From its line the row can be
read back with all six fields, and from the whole text the list of rows, so that no other list
gives the same text. -/
theorem table_determines_rows (s : Sink) (hs : s.Sturdy) (rows : List Row)
    (h : ∀ r ∈ rows, r.OneLine) :
    ∃ t bytes text, (Tracer.ofSink s).tabulate rows = (t, .ok ()) ∧
      t.sink.stored.toList = s.stored.toList ++ bytes ∧
      Text.Utf8.decode? bytes = some text ∧
      text.splitOn '\n' = lines rows ++ [[]] ∧
      (∀ r ∈ rows, Row.ofLine? r.text.toList = some r) ∧
      read bytes = some rows ∧
      ∀ s' rows' t', s'.Sturdy → (∀ r ∈ rows', r.OneLine) →
        (Tracer.ofSink s').tabulate rows' = (t', .ok ()) →
        t'.sink.stored.toList = s'.stored.toList ++ bytes → rows' = rows := by
  obtain ⟨t, ht, hwrote⟩ := Tracer.tabulate_of_sturdy (t := .ofSink s) hs rows
  have hread := read_table h
  refine ⟨t, table false rows, _, ht, hwrote.text, ?_, splitOn_flatMap fun _ =>
    lineFeed_not_mem_lines h, fun r _ => ofLine?_text r, hread, ?_⟩
  · rw [table_eq_encode, Text.Utf8.decode?_encode]
  · intro s' rows' t' hs' h' ht' htext
    obtain ⟨u, hu, hwrote'⟩ := Tracer.tabulate_of_sturdy (t := .ofSink s') hs' rows'
    obtain ⟨rfl, _⟩ := Prod.mk.inj (ht'.symm.trans hu)
    have htable : table false rows' = table false rows :=
      List.append_cancel_left (hwrote'.text.symm.trans htext)
    have hread' := read_table h'
    rw [htable, hread] at hread'
    exact (Option.some.inj hread').symm

/-- Bars as symbol and in the action, a number wider than its column, and a row of spaces. -/
theorem bars_read_back :
    ∃ t bytes, (Tracer.ofSink .unlimited).tabulate
        [⟨12345678, 0, 4095, 255, '|', "1 | 2"⟩, ⟨0, 10, 0, 0, ' ', ""⟩] = (t, .ok ()) ∧
      t.sink.stored.toList = bytes ∧
      read bytes = some [⟨12345678, 0, 4095, 255, '|', "1 | 2"⟩, ⟨0, 10, 0, 0, ' ', ""⟩] := by
  obtain ⟨t, bytes, _, ht, hstored, _, _, _, hread, _⟩ := table_determines_rows .unlimited
    ⟨rfl, rfl⟩ [⟨12345678, 0, 4095, 255, '|', "1 | 2"⟩, ⟨0, 10, 0, 0, ' ', ""⟩] (by
      intro r hr
      rcases List.mem_cons.mp hr with rfl | hr
      · exact ⟨by decide, by decide⟩
      · obtain rfl := List.mem_singleton.mp hr
        exact ⟨by decide, by decide⟩)
  exact ⟨t, bytes, ht, hstored, hread⟩

end Trace
end ByteTape
