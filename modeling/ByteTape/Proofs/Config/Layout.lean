import ByteTape.Proofs.Config.Meaning
import ByteTape.Proofs.Text.Trim
import Mathlib.Logic.Relation

/-! The layout of a configuration. Line ends, blanks, quotes around values, and lines from which
nothing is read can be changed, and the text means what it meant. -/
namespace ByteTape.Config

def Spaces (cs : List Char) : Prop := Text.Blank cs ∧ '\n' ∉ cs

instance (cs : List Char) : Decidable (Spaces cs) :=
  inferInstanceAs (Decidable (Text.Blank cs ∧ '\n' ∉ cs))

inductive Respaced : List Char → List Char → Prop
  /-- More blanks among those at the ends. -/
  | ends {outer outer' l r : List Char} (raw : List Char) (houter : Text.Blank outer)
      (houter' : Text.Blank outer') (hl : Spaces l) (hr : Spaces r) :
      Respaced (outer ++ raw ++ outer') (outer ++ l ++ raw ++ r ++ outer')
  /-- More blanks around the first equals sign, whatever line this is. -/
  | equals {before l r : List Char} (after : List Char) (hbefore : '=' ∉ before) (hl : Spaces l)
      (hr : Spaces r) : Respaced (before ++ '=' :: after) (before ++ l ++ '=' :: (r ++ after))
  /-- More blanks inside the brackets of a header. -/
  | brackets {outer outer' l r : List Char} (inner : List Char) (houter : Text.Blank outer)
      (houter' : Text.Blank outer') (hl : Spaces l) (hr : Spaces r) :
      Respaced (outer ++ '[' :: (inner ++ ']' :: outer'))
        (outer ++ '[' :: (l ++ inner ++ r ++ ']' :: outer'))
  /-- Quotes around a value that does not have both, under any key. -/
  | quotes {before l r value : List Char} (hplain : Plain (before ++ '=' :: (l ++ value ++ r)))
      (hbefore : '=' ∉ before) (hl : Text.Blank l) (hr : Text.Blank r)
      (hvalue : Text.trim value = value) (hunquoted : ∀ inner, value ≠ '"' :: (inner ++ ['"'])) :
      Respaced (before ++ '=' :: (l ++ value ++ r))
        (before ++ '=' :: (l ++ '"' :: (value ++ ['"']) ++ r))

def withReturns (text : List Char) : List Char :=
  text.flatMap fun c => if c = '\n' then ['\r', '\n'] else [c]

def setLine (text : List Char) (n : Nat) (raw : List Char) : List Char :=
  ['\n'].intercalate ((lines text).set n raw)

inductive Relaid : List Char → List Char → Prop
  | returns (text : List Char) : Relaid text (withReturns text)
  | feed (text : List Char) : Relaid text (text ++ ['\n'])
  | idle {text : List Char} {n : Nat} (h : Idle (lines text) n) : Relaid text (setLine text n [])
  | line {text raw raw' : List Char} {n : Nat} (hraw : (lines text)[n]? = some raw)
      (h : Respaced raw raw') : Relaid text (setLine text n raw')

variable {text text' raw raw' before before' after after' name name' : List Char} {n : Nat}

def Alike (raw raw' : List Char) : Prop := ∀ (d : Draft) (n : Nat), d.line n raw' = d.line n raw

private theorem Alike.of_read_eq (h : Line.read raw' = Line.read raw) : Alike raw raw' := by
  intro d n
  rw [Draft.line, Draft.line, h]

private theorem Alike.of_trim_eq (h : Text.trim raw' = Text.trim raw) : Alike raw raw' := by
  apply Alike.of_read_eq
  rw [Line.read, Line.read, h]

private theorem Alike.of_headers (h : Line.read raw = .header name)
    (h' : Line.read raw' = .header name')
    (hname : name ≠ sectionName) (hname' : name' ≠ sectionName) : Alike raw raw' := by
  intro d n
  simp only [Draft.line, h, h', beq_false_of_ne hname, beq_false_of_ne hname']

/-- A line with an equals sign is read from what is on the two sides of it without blanks, except
for the name of a header. -/
private theorem Line.read_equals (hbefore : '=' ∉ before) (after : List Char) :
    Line.read (before ++ '=' :: after) =
      if (Text.trim before).head? = some '#' then .skipped
      else if (Text.trim before).head? = some '[' ∧ (Text.trim after).getLast? = some ']' then
        .header (Text.trim (Text.trim (before ++ '=' :: after)).tail.dropLast)
      else .entry (Text.trim before) (unquote (Text.trim after)) := by
  have htrim : Text.trim (before ++ '=' :: after) = _ := Text.trim_append_cons (by decide) _ _
  have hhead {c : Char} (hc : c ≠ '=') :
      (Text.trim (before ++ '=' :: after)).head? = some c ↔ (Text.trim before).head? = some c := by
    rw [htrim, Text.head?_trim]
    cases Text.trimStart before with
    | nil => simp [hc.symm]
    | cons _ _ => simp
  have hlast {c : Char} (hc : c ≠ '=') :
      (Text.trim (before ++ '=' :: after)).getLast? = some c ↔
        (Text.trim after).getLast? = some c := by
    rw [htrim, Text.getLast?_trim, List.getLast?_append_cons]
    cases Text.trimEnd after with
    | nil => simp [hc.symm]
    | cons _ _ => simp
  have hsplit : splitEquals (Text.trim (before ++ '=' :: after)) =
      some (Text.trimStart before, Text.trimEnd after) := by
    refine splitEquals_eq_some_iff.mpr ⟨htrim, fun h => hbefore ?_⟩
    exact (List.dropWhile_sublist _).subset h
  have hne : Text.trim (before ++ '=' :: after) ≠ [] := by simp [htrim]
  unfold read headerName?
  simp only [hne, false_or, hhead (show '#' ≠ '=' by decide), hhead (show '[' ≠ '=' by decide),
    hlast (show ']' ≠ '=' by decide), hsplit, Text.trim_trimStart, Text.trim_trimEnd]
  by_cases hheader : (Text.trim before).head? = some '[' ∧ (Text.trim after).getLast? = some ']'
  · simp only [if_pos hheader]
  · simp only [if_neg hheader]

private theorem name_ne_sectionName {line : List Char} (h : '=' ∈ line)
    (hread : Line.read line = .header name) : name ≠ sectionName := by
  obtain ⟨inner, hinner, rfl⟩ := Line.read_eq_header_iff.mp hread
  have hmem : '=' ∈ inner := by
    have hline := Text.mem_trim (by decide) h
    rw [hinner] at hline
    simpa using hline
  have hname := Text.mem_trim (by decide) hmem
  intro heq
  rw [heq] at hname
  exact absurd hname (by decide)

private theorem alike_equals (hbefore : '=' ∉ before) (hbefore' : '=' ∉ before')
    (hkey : Text.trim before' = Text.trim before) (hvalue : Text.trim after' = Text.trim after) :
    Alike (before ++ '=' :: after) (before' ++ '=' :: after') := by
  have hread := Line.read_equals hbefore after
  have hread' := Line.read_equals hbefore' after'
  rw [hkey, hvalue] at hread'
  by_cases hcomment : (Text.trim before).head? = some '#'
  · rw [if_pos hcomment] at hread hread'
    exact .of_read_eq (hread'.trans hread.symm)
  · rw [if_neg hcomment] at hread hread'
    by_cases hheader : (Text.trim before).head? = some '[' ∧ (Text.trim after).getLast? = some ']'
    · rw [if_pos hheader] at hread hread'
      exact .of_headers hread hread' (name_ne_sectionName (by simp) hread)
        (name_ne_sectionName (by simp) hread')
    · rw [if_neg hheader] at hread hread'
      exact .of_read_eq (hread'.trans hread.symm)

private theorem read_brackets {outer outer' inner : List Char} (houter : Text.Blank outer)
    (houter' : Text.Blank outer') :
    Line.read (outer ++ '[' :: (inner ++ ']' :: outer')) = .header (Text.trim inner) := by
  refine Line.read_eq_header_iff.mpr ⟨inner, ?_, rfl⟩
  have hcons : '[' :: (inner ++ ']' :: outer') = '[' :: (inner ++ [']']) ++ outer' := by simp
  rw [Text.trim_append_left houter, hcons, Text.trim_append_right houter',
    Text.trim_between (by decide) (by decide)]

private theorem read_quotes {l r value : List Char}
    (hplain : Plain (before ++ '=' :: (l ++ value ++ r)))
    (hbefore : '=' ∉ before) (hl : Text.Blank l) (hr : Text.Blank r)
    (hvalue : Text.trim value = value) (hunquoted : ∀ inner, value ≠ '"' :: (inner ++ ['"'])) :
    Line.read (before ++ '=' :: (l ++ '"' :: (value ++ ['"']) ++ r)) =
      Line.read (before ++ '=' :: (l ++ value ++ r)) := by
  obtain ⟨hskipped, hheader⟩ := Line.plain_iff.mp hplain
  have htrim : Text.trim (l ++ value ++ r) = value := by
    rw [Text.trim_append_right hr, Text.trim_append_left hl, hvalue]
  have htrim' : Text.trim (l ++ '"' :: (value ++ ['"']) ++ r) = '"' :: (value ++ ['"']) := by
    rw [Text.trim_append_right hr, Text.trim_append_left hl,
      Text.trim_between (by decide) (by decide)]
  rw [Line.read_equals hbefore, htrim] at hskipped hheader
  rw [Line.read_equals hbefore, Line.read_equals hbefore, htrim, htrim', unquote_quoted,
    unquote_eq_iff.mpr (.inr ⟨rfl, hunquoted⟩), Text.getLast?_inner]
  by_cases hcomment : (Text.trim before).head? = some '#'
  · exact absurd (if_pos hcomment) hskipped
  · rw [if_neg hcomment] at hheader ⊢
    rw [if_neg hcomment, if_neg (by simp)]
    exact (if_neg fun hbrackets => hheader _ (if_pos hbrackets)).symm

private theorem Respaced.alike (h : Respaced raw raw') : Alike raw raw' := by
  cases h with
  | ends raw houter houter' hl hr =>
    apply Alike.of_trim_eq
    rw [Text.trim_append_right houter', Text.trim_append_right hr.1, List.append_assoc,
      Text.trim_append_left houter, Text.trim_append_left hl.1, Text.trim_append_right houter',
      Text.trim_append_left houter]
  | @equals before l r after hbefore hl hr =>
    refine alike_equals hbefore ?_ (Text.trim_append_right hl.1 _) (Text.trim_append_left hr.1 _)
    rw [List.mem_append, not_or]
    exact ⟨hbefore, fun h => absurd (hl.1 _ h) (by decide)⟩
  | brackets inner houter houter' hl hr =>
    apply Alike.of_read_eq
    rw [read_brackets houter houter', read_brackets houter houter', Text.trim_append_right hr.1,
      Text.trim_append_left hl.1]
  | quotes hplain hbefore hl hr hvalue hunquoted =>
    exact .of_read_eq (read_quotes hplain hbefore hl hr hvalue hunquoted)

private theorem Respaced.notMem (h : Respaced raw raw') (hraw : '\n' ∉ raw) : '\n' ∉ raw' := by
  cases h with
  | ends raw _ _ hl hr => simpa [hl.2, hr.2] using hraw
  | equals after _ hl hr => simpa [hl.2, hr.2] using hraw
  | brackets inner _ _ hl hr => simpa [hl.2, hr.2] using hraw
  | quotes => simpa using hraw

private theorem Draft.foldl_line_congr {ls ls' : List (List Char)} (h : List.Forall₂ Alike ls ls')
    (d : Draft) (k : Nat) : (ls'.zipIdx k).foldl (fun d l => d.line l.2 l.1) d =
      (ls.zipIdx k).foldl (fun d l => d.line l.2 l.1) d := by
  induction h generalizing d k with
  | nil => rfl
  | cons halike _ ih =>
    rw [List.zipIdx_cons, List.zipIdx_cons, List.foldl_cons, List.foldl_cons, halike]
    exact ih _ _

private theorem parse_eq_of_ofLines (h : Draft.ofLines (lines text') = Draft.ofLines (lines text)) :
    parse text' = parse text :=
  congrArg (fun d : Draft => (d.config, d.warnings.toList)) h

/-- A text is what its lines do, one after another. -/
theorem parse_eq_of_forall₂ (h : List.Forall₂ Alike (lines text) (lines text')) :
    parse text' = parse text :=
  parse_eq_of_ofLines (Draft.foldl_line_congr h Draft.initial 1)

private theorem lines_setLine (h : '\n' ∉ raw) :
    lines (setLine text n raw) = (lines text).set n raw := by
  have hne : (lines text).set n raw ≠ [] := by
    rw [Ne, List.set_eq_nil_iff]
    exact lines_ne_nil text
  refine lines_intercalate hne fun line hline => ?_
  rcases List.mem_or_eq_of_mem_set hline with hold | rfl
  · exact feed_notMem_of_mem_lines hold
  · exact h

private theorem parse_setLine (hraw : (lines text)[n]? = some raw) (hfeed : '\n' ∉ raw')
    (h : Alike raw raw') : parse (setLine text n raw') = parse text := by
  apply parse_eq_of_forall₂
  rw [lines_setLine hfeed, List.forall₂_iff_get]
  refine ⟨(List.length_set ..).symm, fun k hk hk' => ?_⟩
  rw [List.get_eq_getElem, List.get_eq_getElem, List.getElem_set]
  split
  · rename_i hkn
    subst hkn
    have hget : (lines text)[n] = raw := (List.getElem?_eq_some_iff.mp hraw).2
    rwa [hget]
  · exact fun _ _ => rfl

private theorem Idle.of_skipped {ls : List (List Char)} {line : List Char}
    (hline : ls[n]? = some line) (h : Line.read line = .skipped) : Idle ls n := by
  intro other hother
  obtain rfl := Option.some.inj (hline.symm.trans hother)
  refine ⟨fun name hname => ?_, fun he => (Line.plain_iff.mp he.plain).1 h⟩
  rw [← Line.read_eq_header_iff, h] at hname
  cases hname

private theorem parse_setLine_nil (h : Idle (lines text) n) :
    parse (setLine text n []) = parse text := by
  apply parse_congr
  intro k
  rw [lines_setLine List.not_mem_nil]
  rcases Nat.lt_or_ge n (lines text).length with hn | hn
  · by_cases hk : k = n
    · subst hk
      exact .inr ⟨h, .of_skipped (List.getElem?_set_self hn) rfl⟩
    · exact .inl (List.getElem?_set_ne (Ne.symm hk))
  · rw [List.set_eq_of_length_le hn]
    exact .inl rfl

private theorem forall₂_lines_withReturns (text : List Char) :
    List.Forall₂ (fun raw raw' => raw' = raw ∨ raw' = raw ++ ['\r']) (lines text)
      (lines (withReturns text)) := by
  induction text with
  | nil => exact .cons (.inl rfl) .nil
  | cons c text ih =>
    by_cases hc : c = '\n'
    · subst hc
      exact .cons (.inr rfl) ih
    · have hreturns : withReturns (c :: text) = c :: withReturns text := by
        simp [withReturns, hc]
      obtain ⟨line, rest, hlines⟩ := List.exists_cons_of_ne_nil (lines_ne_nil text)
      obtain ⟨line', rest', hlines'⟩ :=
        List.exists_cons_of_ne_nil (lines_ne_nil (withReturns text))
      rw [hlines, hlines', List.forall₂_cons] at ih
      rw [hreturns, lines_cons hc hlines, lines_cons hc hlines', List.forall₂_cons]
      exact ⟨ih.1.imp (congrArg (c :: ·)) (congrArg (c :: ·)), ih.2⟩

private theorem parse_withReturns (text : List Char) : parse (withReturns text) = parse text := by
  refine parse_eq_of_forall₂ ((forall₂_lines_withReturns text).imp fun raw raw' h => ?_)
  apply Alike.of_trim_eq
  rcases h with rfl | rfl
  · rfl
  · exact Text.trim_append_right (by decide) raw

private theorem parse_append_feed (text : List Char) : parse (text ++ ['\n']) = parse text := by
  have hlines : lines (text ++ ['\n']) = lines text ++ [[]] := lines_append text []
  apply parse_eq_of_ofLines
  rw [hlines, Draft.ofLines_concat]
  rfl

private theorem Relaid.parse_eq (h : Relaid text text') : parse text' = parse text := by
  cases h with
  | returns => exact parse_withReturns text
  | feed => exact parse_append_feed text
  | idle h => exact parse_setLine_nil h
  | line hraw h =>
    have hfeed := feed_notMem_of_mem_lines (List.mem_of_getElem? hraw)
    exact parse_setLine hraw (h.notMem hfeed) h.alike

/-- Carriage returns before the line feeds, one line feed more at the end, further blanks at the ends
of lines, around their first equals signs and in the brackets of headers, quotes around values, and
empty lines instead of idle ones: after any number of such changes the configuration and all warnings
are what they were, with their texts and line numbers. -/
theorem parse_of_relaid (h : Relation.ReflTransGen Relaid text text') :
    parse text' = parse text := by
  induction h with
  | refl => rfl
  | tail _ hstep ih => rw [hstep.parse_eq, ih]

/-- A header, a comment, a value that is reported and one that is not, all written otherwise. -/
theorem relaid_header_to_last_line :
    let text := "[interpreter]\n# why\neof = up\ntrace=true".toList
    let text' := "[ interpreter ]\r\n\r\neof = \"up\"\r\ntrace =\u00A0true\r\n".toList
    Relation.ReflTransGen Relaid text text' ∧
      parse text' = ({ trace := true }, [⟨3, .invalidEof "up"⟩]) := by
  intro text text'
  let first := setLine text 0 "[ interpreter ]".toList
  let second := setLine first 1 []
  let third := setLine second 2 "eof = \"up\"".toList
  let fourth := setLine third 3 "trace =\u00A0true".toList
  have hbrackets : Relaid text first :=
    .line (show (lines text)[0]? = some "[interpreter]".toList by decide)
      (.brackets "interpreter".toList Text.blank_nil Text.blank_nil (show Spaces [' '] by decide)
        (show Spaces [' '] by decide))
  have hidle : Relaid first second :=
    .idle (.of_skipped (show (lines first)[1]? = some "# why".toList by decide) (by decide))
  have hquotes : Relaid second third := by
    have hread : Line.read "eof = up".toList = .entry "eof".toList "up".toList := by decide
    refine .line (show (lines second)[2]? = some "eof = up".toList by decide)
      (.quotes (Line.read_eq_entry_iff.mp hread).1 (show '=' ∉ "eof ".toList by decide)
        (show Text.Blank [' '] by decide) Text.blank_nil
        (show Text.trim "up".toList = "up".toList by decide) fun inner h => ?_)
    exact absurd (List.cons.inj h).1 (by decide)
  have hequals : Relaid third fourth :=
    .line (show (lines third)[3]? = some "trace=true".toList by decide)
      (.equals "true".toList (show '=' ∉ "trace".toList by decide) (show Spaces [' '] by decide)
        (show Spaces ['\u00A0'] by decide))
  have hends : withReturns (fourth ++ ['\n']) = text' := by decide
  have hfourth : Relation.ReflTransGen Relaid text fourth :=
    (((Relation.ReflTransGen.single hbrackets).tail hidle).tail hquotes).tail hequals
  have hrelaid : Relation.ReflTransGen Relaid text text' :=
    hends ▸ (hfourth.tail (.feed fourth)).tail (.returns _)
  refine ⟨hrelaid, ?_⟩
  rw [parse_of_relaid hrelaid]
  decide

end ByteTape.Config
