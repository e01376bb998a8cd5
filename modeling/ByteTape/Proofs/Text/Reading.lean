import ByteTape.Proofs.Text.Encoding

/-! How a byte string falls into units, said without a decoder. Where a character can be read it is
one unit. Elsewhere the unit is malformed, and it is as long as the bytes begin some character. There
is exactly one such reading of every byte string, and the decoder finds it. -/
namespace ByteTape.Text.Utf8
open String (utf8EncodeChar)

/-- No character can be read at the head of `part ++ rest`, and `part` is the longest that begins
one there, or is a single byte. -/
structure Malformed (part rest : List UInt8) : Prop where
  filled : part ≠ []
  unreadable : ∀ c, ¬ utf8EncodeChar c <+: part ++ rest
  begins : part.length = 1 ∨ ∃ c, part <+: utf8EncodeChar c
  longest : ∀ longer, longer <+: part ++ rest → part.length < longer.length →
    ∀ c, ¬ longer <+: utf8EncodeChar c

/-- The units of a byte string, a malformed one as `none`. -/
inductive Reading : List UInt8 → List (Option Char) → Prop
  | nil : Reading [] []
  | char (c : Char) {rest : List UInt8} {us : List (Option Char)} :
      Reading rest us → Reading (utf8EncodeChar c ++ rest) (some c :: us)
  | malformed {part rest : List UInt8} {us : List (Option Char)} (h : Malformed part rest) :
      Reading rest us → Reading (part ++ rest) (none :: us)

variable {part rest bytes : List UInt8} {us vs : List (Option Char)} {p : Pending} {b : UInt8}

private theorem utf8EncodeChar_ne_nil (c : Char) : utf8EncodeChar c ≠ [] := by
  rcases utf8EncodeChar_cases c with ⟨_, hc⟩ | ⟨_, _, hc⟩ | ⟨_, _, hc⟩ | ⟨_, _, hc⟩ <;>
    rw [hc] <;> exact List.cons_ne_nil _ _

private theorem Malformed.length_le {part' rest' : List UInt8} (h : Malformed part rest)
    (h' : Malformed part' rest') (heq : part ++ rest = part' ++ rest') :
    part'.length ≤ part.length := by
  by_contra hlt
  have hpos := List.length_pos_of_ne_nil h.filled
  rcases h'.begins with hone | ⟨c, hc⟩
  · omega
  · exact h.longest part' (heq ▸ List.prefix_append _ _) (by omega) c hc

private theorem Reading.unique (h : Reading bytes us) (h' : Reading bytes vs) : us = vs := by
  induction h generalizing vs with
  | nil =>
    generalize hb : ([] : List UInt8) = bytes at h'
    cases h' with
    | nil => rfl
    | char c => exact absurd (List.append_eq_nil_iff.mp hb.symm).1 (utf8EncodeChar_ne_nil c)
    | malformed hm => exact absurd (List.append_eq_nil_iff.mp hb.symm).1 hm.filled
  | @char c rest us _ ih =>
    have hc := List.prefix_append (utf8EncodeChar c) rest
    generalize hb : utf8EncodeChar c ++ rest = bytes at h' hc
    cases h' with
    | nil => exact absurd (List.append_eq_nil_iff.mp hb).1 (utf8EncodeChar_ne_nil c)
    | char c' h' =>
      obtain rfl := eq_of_utf8EncodeChar_isPrefix hc (List.prefix_append _ _)
      obtain rfl := List.append_cancel_left hb
      rw [ih h']
    | malformed hm => exact absurd hc (hm.unreadable c)
  | @malformed part rest us hm _ ih =>
    generalize hb : part ++ rest = bytes at h'
    cases h' with
    | nil => exact absurd (List.append_eq_nil_iff.mp hb).1 hm.filled
    | char c => exact absurd (hb ▸ List.prefix_append _ _) (hm.unreadable c)
    | malformed hm' h' =>
      have hlength := le_antisymm (hm'.length_le hm hb.symm) (hm.length_le hm' hb)
      obtain ⟨rfl, rfl⟩ := List.append_inj hb hlength
      rw [ih h']

private theorem malformed_singleton (h : ∀ c, ¬ [b] <+: utf8EncodeChar c) (rest : List UInt8) :
    Malformed [b] rest where
  filled := List.cons_ne_nil _ _
  unreadable c hc := by
    obtain ⟨x, xs, hx⟩ := List.exists_cons_of_ne_nil (utf8EncodeChar_ne_nil c)
    rw [hx, List.singleton_append, List.cons_prefix_cons] at hc
    exact h c (hx ▸ hc.1 ▸ List.prefix_append [x] xs)
  begins := .inl rfl
  longest longer hlonger hlength c hc := by
    obtain ⟨x, xs, rfl⟩ := List.exists_cons_of_length_pos (Nat.zero_lt_of_lt hlength)
    rw [List.singleton_append, List.cons_prefix_cons] at hlonger
    exact h c (((List.prefix_append [b] xs).trans (hlonger.1 ▸ List.prefix_rfl)).trans hc)

/-- A character that is begun and not gone on with is malformed up to there. -/
private theorem Begun.malformed (h : Begun part p)
    (hrest : ∀ b, rest.head? = some b → ¬ (p.low ≤ b ∧ b ≤ p.high)) : Malformed part rest := by
  obtain ⟨c₀, hc₀, hlength₀⟩ := h.exists_isPrefix
  have hlongest (longer : List UInt8) (hlonger : longer <+: part ++ rest)
      (hlength : part.length < longer.length) (c : Char) : ¬ longer <+: utf8EncodeChar c := by
    intro hc
    obtain ⟨more, rfl⟩ := List.prefix_of_prefix_length_le (List.prefix_append part rest) hlonger
      hlength.le
    rw [List.prefix_append_right_inj] at hlonger
    cases more with
    | nil => simp at hlength
    | cons b more =>
      obtain ⟨rest', rfl⟩ := hlonger
      refine h.not_isPrefix (hrest b rfl) c (List.IsPrefix.trans ?_ hc)
      exact ⟨more, by simp⟩
  refine ⟨h.filled, fun c hc => ?_, .inr ⟨c₀, hc₀⟩, hlongest⟩
  rcases Nat.lt_or_ge part.length (utf8EncodeChar c).length with hlt | hle
  · exact hlongest _ hc hlt c List.prefix_rfl
  · have hpart := List.prefix_of_prefix_length_le hc (List.prefix_append part rest) hle
    obtain rfl := eq_of_utf8EncodeChar_isPrefix (hpart.trans hc₀) List.prefix_rfl
    omega

namespace Decoder

/-- What the decoder has under way: nothing, or bytes that begin some character. -/
def Holds (d : Decoder) (part : List UInt8) : Prop :=
  match d.pending with
  | none => part = []
  | some p => Begun part p

/-- A decoder goes on from what it holds, and adds the units of a reading. -/
def ReadsOn (d : Decoder) (part bytes : List UInt8) : Prop :=
  ∃ vs, (bytes.foldl feed d).finish.toList = d.units.toList ++ vs ∧ Reading (part ++ bytes) vs

private theorem readsOn_begin (us : Array (Option Char)) (b : UInt8) {bytes : List UInt8}
    (ih : ∀ d part, Holds d part → d.ReadsOn part bytes) :
    ∃ vs, (bytes.foldl feed (begin us b)).finish.toList = us.toList ++ vs ∧
      Reading (b :: bytes) vs := by
  have hlead := lead_describes b
  unfold begin
  cases hb : lead b with
  | single c =>
    rw [hb] at hlead
    obtain ⟨vs, hvs, hread⟩ := ih ⟨us.push (some c), none⟩ [] rfl
    have hc : utf8EncodeChar c ++ bytes = b :: bytes := congrArg (· ++ bytes) hlead
    exact ⟨some c :: vs, by simpa using hvs, hc ▸ .char c hread⟩
  | multi p =>
    rw [hb] at hlead
    exact ih ⟨us, some p⟩ [b] hlead
  | malformed =>
    rw [hb] at hlead
    obtain ⟨vs, hvs, hread⟩ := ih ⟨us.push none, none⟩ [] rfl
    exact ⟨none :: vs, by simpa using hvs, .malformed (malformed_singleton hlead bytes) hread⟩

/-- The three things that a byte can do to a character under way. -/
private theorem feed_cases (h : Begun part p) (us : Array (Option Char)) (b : UInt8) :
    (∃ c, utf8EncodeChar c = part ++ [b] ∧ feed ⟨us, some p⟩ b = ⟨us.push (some c), none⟩) ∨
    (∃ p', Begun (part ++ [b]) p' ∧ feed ⟨us, some p⟩ b = ⟨us, some p'⟩) ∨
    ((∀ rest, Malformed part (b :: rest)) ∧ feed ⟨us, some p⟩ b = begin (us.push none) b) := by
  by_cases hb : p.low ≤ b ∧ b ≤ p.high
  · by_cases hm : p.missing ≤ 1
    · exact .inl ⟨_, h.complete hb hm, by simp only [feed, if_pos hb, if_pos hm]⟩
    · exact .inr (.inl ⟨_, h.feed hb hm, by simp only [feed, if_pos hb, if_neg hm]⟩)
  · refine .inr (.inr ⟨fun rest => h.malformed fun b' hb' => ?_, by simp only [feed, if_neg hb]⟩)
    exact Option.some.inj hb' ▸ hb

private theorem readsOn_of_holds (d : Decoder) (part bytes : List UInt8) (h : Holds d part) :
    d.ReadsOn part bytes := by
  induction bytes generalizing d part with
  | nil =>
    obtain ⟨us, pending⟩ := d
    cases pending with
    | none =>
      obtain rfl : part = [] := h
      exact ⟨[], by simp [finish], .nil⟩
    | some p =>
      have hm : Malformed part [] := Begun.malformed h (by simp)
      exact ⟨[none], by simp [finish], .malformed hm .nil⟩
  | cons b bytes ih =>
    obtain ⟨us, pending⟩ := d
    cases pending with
    | none =>
      obtain rfl : part = [] := h
      exact readsOn_begin us b ih
    | some p =>
      rw [ReadsOn, List.foldl_cons]
      rcases feed_cases h us b with ⟨c, hc, hfeed⟩ | ⟨p', hbegun, hfeed⟩ | ⟨hm, hfeed⟩ <;> rw [hfeed]
      · obtain ⟨vs, hvs, hread⟩ := ih ⟨us.push (some c), none⟩ [] rfl
        have hread' := Reading.char c hread
        rw [hc, List.append_assoc] at hread'
        exact ⟨some c :: vs, by simpa using hvs, hread'⟩
      · obtain ⟨vs, hvs, hread⟩ := ih ⟨us, some p'⟩ (part ++ [b]) hbegun
        rw [List.append_assoc] at hread
        exact ⟨vs, hvs, hread⟩
      · obtain ⟨vs, hvs, hread⟩ := readsOn_begin (us.push none) b ih
        exact ⟨none :: vs, by simpa using hvs, .malformed (hm bytes) hread⟩

end Decoder

theorem reading_units (bytes : List UInt8) : Reading bytes (units bytes) := by
  obtain ⟨vs, hvs, hread⟩ := Decoder.initial.readsOn_of_holds [] bytes rfl
  have hunits : units bytes = vs := hvs
  exact hunits ▸ hread

/-- There is one reading. -/
theorem reading_iff : Reading bytes us ↔ us = units bytes :=
  ⟨fun h => h.unique (reading_units bytes), fun h => h ▸ reading_units bytes⟩

/-- Malformed units have no ASCII bytes: each of these would be a character. -/
private theorem Malformed.le_of_mem (h : Malformed part rest) (hb : b ∈ part) : 0x80 ≤ b.toNat := by
  by_contra hlt
  have hchar := utf8EncodeChar_ofNat (not_le.mp hlt)
  have hwhole : ∀ c, part ≠ utf8EncodeChar c := fun c hc =>
    h.unreadable c (hc ▸ List.prefix_append _ _)
  rcases h.begins with hone | ⟨c, hc⟩
  · obtain ⟨b', rfl⟩ := List.length_eq_one_iff.mp hone
    obtain rfl := List.mem_singleton.mp hb
    exact hwhole _ hchar.symm
  · rcases Nat.lt_or_ge c.toNat 0x80 with hascii | hother
    · have hlength := hc.length_le
      rw [utf8EncodeChar_of_lt hascii, List.length_singleton] at hlength
      have hpos := List.length_pos_of_ne_nil h.filled
      refine hwhole c (hc.eq_of_length ?_)
      rw [utf8EncodeChar_of_lt hascii, List.length_singleton]
      omega
    · exact hlt (le_of_mem_utf8EncodeChar hother (hc.subset hb))

def shown (us : List (Option Char)) : List Char := us.map (·.getD replacement)

/-- ASCII bytes and ASCII characters are the same, in the same order. -/
theorem Reading.filter_ascii (h : Reading bytes us) : (shown us).filter (·.toNat < 0x80) =
    (bytes.filter (·.toNat < 0x80)).map fun b => Char.ofNat b.toNat := by
  induction h with
  | nil => rfl
  | @char c rest us _ ih =>
    rw [List.filter_append, List.map_append, ← ih]
    rcases Nat.lt_or_ge c.toNat 0x80 with hc | hc
    · have hbyte : (UInt8.ofNat c.toNat).toNat = c.toNat := by
        rw [UInt8.toNat_ofNat']
        omega
      rw [utf8EncodeChar_of_lt hc]
      simp [shown, hc, hbyte]
    · have hnone : (utf8EncodeChar c).filter (·.toNat < 0x80) = [] := by
        simp only [List.filter_eq_nil_iff, decide_eq_true_eq, not_lt]
        exact fun b => le_of_mem_utf8EncodeChar hc
      simp [shown, hnone, not_lt.mpr hc]
  | @malformed part rest us hm _ ih =>
    have hnone : part.filter (·.toNat < 0x80) = [] := by
      simp only [List.filter_eq_nil_iff, decide_eq_true_eq, not_lt]
      exact fun b => hm.le_of_mem
    have hreplacement : ¬ replacement.toNat < 0x80 := by decide
    rw [List.filter_append, hnone, List.nil_append, ← ih]
    simp [shown, hreplacement]

/-- Every unit has a byte at least. -/
theorem Reading.length_le (h : Reading bytes us) : us.length ≤ bytes.length := by
  induction h with
  | nil => exact le_rfl
  | @char c rest us _ ih =>
    have := List.length_pos_of_ne_nil (utf8EncodeChar_ne_nil c)
    rw [List.length_append, List.length_cons]
    omega
  | @malformed part rest us hm _ ih =>
    have := List.length_pos_of_ne_nil hm.filled
    rw [List.length_append, List.length_cons]
    omega

private theorem reading_encode (text : List Char) : Reading (encode text) (text.map some) := by
  induction text with
  | nil => exact .nil
  | cons c text ih => exact .char c ih

/-- Text that was encoded is read back. -/
theorem decodeLossy_encode (text : List Char) : decodeLossy (encode text) = text := by
  have hunits : text.map some = units (encode text) := reading_iff.mp (reading_encode text)
  simp [decodeLossy, ← hunits]

/-- The strict decoder refuses nothing that the encoder gives. -/
theorem decode?_encode (text : List Char) : decode? (encode text) = some text := by
  have hunits : text.map some = units (encode text) := reading_iff.mp (reading_encode text)
  have hall (cs : List Char) : (cs.map some).mapM id = some cs := by
    induction cs with
    | nil => rfl
    | cons c cs ih => simp [ih]
  rw [decode?, ← hunits, hall]

end ByteTape.Text.Utf8
