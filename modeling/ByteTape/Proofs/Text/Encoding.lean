import ByteTape.Text.Utf8
import Mathlib.Data.List.Infix
import Mathlib.Data.Nat.Basic
import Mathlib.Tactic.NormNum

/-! How the bytes of single characters begin. A decoder that has taken some bytes of a character knows
which characters they begin: those whose numbers lie in one range. -/
namespace ByteTape.Text.Utf8
open String (utf8EncodeChar)

/-- The four forms of a character. -/
theorem utf8EncodeChar_cases (c : Char) :
    (c.toNat < 0x80 ∧ utf8EncodeChar c = [.ofNat c.toNat]) ∨
    (0x80 ≤ c.toNat ∧ c.toNat < 0x800 ∧
      utf8EncodeChar c = [.ofNat (c.toNat / 64 + 0xC0), .ofNat (c.toNat % 64 + 0x80)]) ∨
    (0x800 ≤ c.toNat ∧ c.toNat < 0x10000 ∧
      utf8EncodeChar c = [.ofNat (c.toNat / 4096 + 0xE0), .ofNat (c.toNat / 64 % 64 + 0x80),
        .ofNat (c.toNat % 64 + 0x80)]) ∨
    (0x10000 ≤ c.toNat ∧ c.toNat < 0x110000 ∧
      utf8EncodeChar c = [.ofNat (c.toNat / 262144 + 0xF0), .ofNat (c.toNat / 4096 % 64 + 0x80),
        .ofNat (c.toNat / 64 % 64 + 0x80), .ofNat (c.toNat % 64 + 0x80)]) := by
  have hvalid : c.toNat < 0x110000 := by
    have h := c.valid
    simp only [UInt32.isValidChar, Nat.isValidChar] at h
    change c.val.toNat < _
    omega
  have hval : c.val.toNat = c.toNat := rfl
  simp only [utf8EncodeChar, hval]
  by_cases h1 : c.toNat ≤ 0x7f
  · exact .inl ⟨by omega, if_pos h1⟩
  · rw [if_neg h1]
    by_cases h2 : c.toNat ≤ 0x7ff
    · rw [if_pos h2, Nat.mod_eq_of_lt (show c.toNat / 64 < 32 by omega)]
      exact .inr (.inl ⟨by omega, by omega, rfl⟩)
    · rw [if_neg h2]
      by_cases h3 : c.toNat ≤ 0xffff
      · rw [if_pos h3, Nat.mod_eq_of_lt (show c.toNat / 4096 < 16 by omega)]
        exact .inr (.inr (.inl ⟨by omega, by omega, rfl⟩))
      · rw [if_neg h3, Nat.mod_eq_of_lt (show c.toNat / 262144 < 8 by omega)]
        exact .inr (.inr (.inr ⟨by omega, by omega, rfl⟩))

variable {part : List UInt8} {p : Pending} {b : UInt8} {c : Char}

theorem utf8EncodeChar_of_lt (h : c.toNat < 0x80) : utf8EncodeChar c = [.ofNat c.toNat] := by
  rcases utf8EncodeChar_cases c with ⟨_, hc⟩ | ⟨_, _, _⟩ | ⟨_, _, _⟩ | ⟨_, _, _⟩
  · exact hc
  all_goals omega

private theorem toNat_ofNat_of_valid {n : Nat} (h : n.isValidChar) : (Char.ofNat n).toNat = n := by
  rw [Char.ofNat, dif_pos h]
  rfl

theorem toNat_ofNat_byte (b : UInt8) : (Char.ofNat b.toNat).toNat = b.toNat := by
  have hb := b.toNat_lt
  exact toNat_ofNat_of_valid (.inl (by omega))

theorem utf8EncodeChar_ofNat (h : b.toNat < 0x80) : utf8EncodeChar (Char.ofNat b.toNat) = [b] := by
  have hascii : (Char.ofNat b.toNat).toNat < 0x80 := by rwa [toNat_ofNat_byte]
  rw [utf8EncodeChar_of_lt hascii, toNat_ofNat_byte, UInt8.ofNat_toNat]

/-- The bytes of other characters are no ASCII. -/
theorem le_of_mem_utf8EncodeChar (h : 0x80 ≤ c.toNat) (hb : b ∈ utf8EncodeChar c) :
    0x80 ≤ b.toNat := by
  rcases utf8EncodeChar_cases c with ⟨_, hc⟩ | ⟨_, _, hc⟩ | ⟨_, _, hc⟩ | ⟨_, _, hc⟩
  · omega
  all_goals
    rw [hc] at hb
    simp only [List.mem_cons, List.not_mem_nil, or_false] at hb
    rcases hb with rfl | rfl | rfl | rfl <;> simp only [UInt8.toNat_ofNat'] <;> omega

/-- No character begins like another one. -/
theorem eq_of_utf8EncodeChar_isPrefix {c' : Char} {bytes : List UInt8}
    (h : utf8EncodeChar c <+: bytes) (h' : utf8EncodeChar c' <+: bytes) : c = c' := by
  have hdecode {d : Char} (hd : utf8EncodeChar d <+: bytes) :
      bytes.toByteArray.utf8DecodeChar? 0 = some d := by
    obtain ⟨rest, rfl⟩ := hd
    rw [List.toByteArray_append]
    exact ByteArray.utf8DecodeChar?_utf8EncodeChar_append
  exact Option.some.inj ((hdecode h).symm.trans (hdecode h'))

private theorem getElem?_utf8EncodeChar {i m : Nat} (hi : 0 < i) (hm : 0 < m)
    (h : (utf8EncodeChar c).length = i + m) :
    (utf8EncodeChar c)[i]? = some (.ofNat (c.toNat / 64 ^ (m - 1) % 64 + 0x80)) := by
  rcases utf8EncodeChar_cases c with ⟨_, hc⟩ | ⟨_, _, hc⟩ | ⟨_, _, hc⟩ | ⟨_, _, hc⟩ <;>
    rw [hc] at h ⊢ <;> simp only [List.length_cons, List.length_nil] at h
  · omega
  · obtain ⟨rfl, rfl⟩ : i = 1 ∧ m = 1 := by omega
    simp
  · obtain ⟨rfl, rfl⟩ | ⟨rfl, rfl⟩ : (i = 1 ∧ m = 2) ∨ (i = 2 ∧ m = 1) := by omega
    · simp
    · simp
  · obtain ⟨rfl, rfl⟩ | ⟨rfl, rfl⟩ | ⟨rfl, rfl⟩ :
        (i = 1 ∧ m = 3) ∨ (i = 2 ∧ m = 2) ∨ (i = 3 ∧ m = 1) := by omega
    · simp
    · simp
    · simp

/-- The numbers of the characters that can still come of a character under way. -/
def Pending.Covers (p : Pending) (v : Nat) : Prop :=
  p.bits * 64 + (p.low.toNat - 0x80) ≤ v / 64 ^ (p.missing - 1) ∧
    v / 64 ^ (p.missing - 1) ≤ p.bits * 64 + (p.high.toNat - 0x80)

/-- The bytes are the beginning of just those characters that can still come, all of one length. -/
structure Begun (part : List UInt8) (p : Pending) : Prop where
  filled : part ≠ []
  missing_pos : 0 < p.missing
  low_ge : 0x80 ≤ p.low.toNat
  low_le_high : p.low.toNat ≤ p.high.toNat
  high_le : p.high.toNat ≤ 0xBF
  valid : ∀ v, p.Covers v → v.isValidChar
  length : ∀ c : Char, p.Covers c.toNat → (utf8EncodeChar c).length = part.length + p.missing
  begins : ∀ c : Char, part <+: utf8EncodeChar c ↔ p.Covers c.toNat

private theorem concat_isPrefix_iff {bytes : List UInt8} :
    part ++ [b] <+: bytes ↔ part <+: bytes ∧ bytes[part.length]? = some b := by
  constructor
  · rintro ⟨rest, rfl⟩
    exact ⟨⟨b :: rest, by simp⟩, by simp⟩
  · rintro ⟨⟨rest, rfl⟩, h⟩
    cases rest with
    | nil => simp at h
    | cons b' rest =>
      obtain rfl : b' = b := by simpa using h
      exact ⟨rest, by simp⟩

namespace Begun

/-- One byte more of a character are six bits more of its number. -/
private theorem concat_isPrefix_iff (h : Begun part p) : part ++ [b] <+: utf8EncodeChar c ↔
    p.Covers c.toNat ∧ c.toNat / 64 ^ (p.missing - 1) % 64 + 0x80 = b.toNat := by
  rw [Utf8.concat_isPrefix_iff, h.begins]
  apply and_congr_right
  intro hc
  rw [getElem?_utf8EncodeChar (List.length_pos_of_ne_nil h.filled) h.missing_pos (h.length c hc),
    Option.some.injEq, ← UInt8.toNat_inj, UInt8.toNat_ofNat']
  omega

/-- A byte outside the range that is due belongs to no character that began so. -/
theorem not_isPrefix (h : Begun part p) (hb : ¬ (p.low ≤ b ∧ b ≤ p.high)) (c : Char) :
    ¬ part ++ [b] <+: utf8EncodeChar c := by
  rw [h.concat_isPrefix_iff, Pending.Covers]
  rw [UInt8.le_iff_toNat_le, UInt8.le_iff_toNat_le] at hb
  have := h.low_ge
  have := h.low_le_high
  have := h.high_le
  omega

/-- The six bits of a byte in its range are the next ones of the number. -/
private theorem covers_and_iff (h : Begun part p) (hb : p.low ≤ b ∧ b ≤ p.high) (v : Nat) :
    p.Covers v ∧ v / 64 ^ (p.missing - 1) % 64 + 0x80 = b.toNat ↔
      v / 64 ^ (p.missing - 1) = p.bits * 64 + (b.toNat - 0x80) := by
  rw [UInt8.le_iff_toNat_le, UInt8.le_iff_toNat_le] at hb
  rw [Pending.Covers]
  have := h.low_ge
  have := h.high_le
  omega

/-- With its last byte there is one character that began so. -/
theorem complete (h : Begun part p) (hb : p.low ≤ b ∧ b ≤ p.high) (hm : p.missing ≤ 1) :
    utf8EncodeChar (Char.ofNat (p.bits * 64 + (b.toNat - 0x80))) = part ++ [b] := by
  have hone : p.missing = 1 := by
    have := h.missing_pos
    omega
  obtain ⟨hcovers, hbits⟩ := (h.covers_and_iff hb (p.bits * 64 + (b.toNat - 0x80))).mpr
    (by simp [hone])
  have hnat : (Char.ofNat (p.bits * 64 + (b.toNat - 0x80))).toNat =
      p.bits * 64 + (b.toNat - 0x80) := toNat_ofNat_of_valid (h.valid _ hcovers)
  rw [← hnat] at hcovers hbits
  have hbegins := h.concat_isPrefix_iff.mpr ⟨hcovers, hbits⟩
  exact (hbegins.eq_of_length (by simp [h.length _ hcovers, hone])).symm

/-- With a byte that is not the last the range is smaller, and any byte may come next. -/
theorem feed (h : Begun part p) (hb : p.low ≤ b ∧ b ≤ p.high) (hm : ¬ p.missing ≤ 1) :
    Begun (part ++ [b]) ⟨p.missing - 1, 0x80, 0xBF, p.bits * 64 + (b.toNat - 0x80)⟩ := by
  have hcovers (v : Nat) :
      Pending.Covers ⟨p.missing - 1, 0x80, 0xBF, p.bits * 64 + (b.toNat - 0x80)⟩ v ↔
        p.Covers v ∧ v / 64 ^ (p.missing - 1) % 64 + 0x80 = b.toNat := by
    rw [h.covers_and_iff hb]
    obtain ⟨m, hm⟩ : ∃ m, p.missing = m + 2 := ⟨p.missing - 2, by omega⟩
    have hdiv : v / 64 ^ (m + 1) = v / 64 ^ m / 64 := by
      rw [pow_succ, Nat.div_div_eq_div_mul]
    have hlow : (0x80 : UInt8).toNat = 0x80 := rfl
    have hhigh : (0xBF : UInt8).toNat = 0xBF := rfl
    simp only [Pending.Covers, hm, hlow, hhigh, Nat.add_sub_cancel, show m + 2 - 1 = m + 1 from rfl,
      hdiv]
    omega
  refine ⟨by simp, Nat.sub_pos_of_lt (not_le.mp hm), show 0x80 ≤ (0x80 : UInt8).toNat by decide,
    show (0x80 : UInt8).toNat ≤ (0xBF : UInt8).toNat by decide,
    show (0xBF : UInt8).toNat ≤ 0xBF by decide, fun v hv => ?_, fun c hc => ?_, fun c => ?_⟩
  · exact h.valid v ((hcovers v).mp hv).1
  · rw [h.length c ((hcovers _).mp hc).1, List.length_append, List.length_singleton]
    simp only
    omega
  · rw [hcovers, h.concat_isPrefix_iff]

/-- There is a character that began so, and it is not complete. -/
theorem exists_isPrefix (h : Begun part p) :
    ∃ c, part <+: utf8EncodeChar c ∧ part.length < (utf8EncodeChar c).length := by
  let v := (p.bits * 64 + (p.low.toNat - 0x80)) * 64 ^ (p.missing - 1)
  have hdiv : v / 64 ^ (p.missing - 1) = p.bits * 64 + (p.low.toNat - 0x80) :=
    Nat.mul_div_cancel _ (Nat.pow_pos (by decide))
  have hcovers : p.Covers v := by
    have := h.low_le_high
    rw [Pending.Covers, hdiv]
    omega
  have hnat : (Char.ofNat v).toNat = v := toNat_ofNat_of_valid (h.valid v hcovers)
  rw [← hnat] at hcovers
  refine ⟨Char.ofNat v, (h.begins _).mpr hcovers, ?_⟩
  have := h.missing_pos
  rw [h.length _ hcovers]
  omega

end Begun

/-- What a first byte says: the whole character, the beginning of some, or the beginning of none. -/
def Lead.Describes (b : UInt8) : Lead → Prop
  | .single c => utf8EncodeChar c = [b]
  | .multi p => Begun [b] p
  | .malformed => ∀ c, ¬ [b] <+: utf8EncodeChar c

private theorem length_cases (c : Char) :
    (c.toNat < 0x80 ∧ (utf8EncodeChar c).length = 1) ∨
    (0x80 ≤ c.toNat ∧ c.toNat < 0x800 ∧ (utf8EncodeChar c).length = 2) ∨
    (0x800 ≤ c.toNat ∧ c.toNat < 0x10000 ∧ (utf8EncodeChar c).length = 3) ∨
    (0x10000 ≤ c.toNat ∧ (utf8EncodeChar c).length = 4) := by
  rcases utf8EncodeChar_cases c with ⟨h, hc⟩ | ⟨h, h', hc⟩ | ⟨h, h', hc⟩ | ⟨h, _, hc⟩ <;> rw [hc]
  · exact .inl ⟨h, rfl⟩
  · exact .inr (.inl ⟨h, h', rfl⟩)
  · exact .inr (.inr (.inl ⟨h, h', rfl⟩))
  · exact .inr (.inr (.inr ⟨h, rfl⟩))

private theorem singleton_isPrefix_iff : [b] <+: utf8EncodeChar c ↔
    (c.toNat < 0x80 ∧ b.toNat = c.toNat) ∨
    (0x80 ≤ c.toNat ∧ c.toNat < 0x800 ∧ b.toNat = c.toNat / 64 + 0xC0) ∨
    (0x800 ≤ c.toNat ∧ c.toNat < 0x10000 ∧ b.toNat = c.toNat / 4096 + 0xE0) ∨
    (0x10000 ≤ c.toNat ∧ c.toNat < 0x110000 ∧ b.toNat = c.toNat / 262144 + 0xF0) := by
  rcases utf8EncodeChar_cases c with ⟨_, hc⟩ | ⟨_, _, hc⟩ | ⟨_, _, hc⟩ | ⟨_, _, hc⟩ <;>
    rw [hc, List.singleton_prefix_cons_iff, ← UInt8.toNat_inj, UInt8.toNat_ofNat'] <;> omega

/-- A first byte with `m` bytes to come, by what this means for numbers. -/
private theorem begun_singleton {m bits : Nat} {low high : UInt8} (hlow : 0x80 ≤ low.toNat)
    (hrange : low.toNat ≤ high.toNat) (hhigh : high.toNat ≤ 0xBF)
    (hmissing : (m = 1 ∧ 0xC0 ≤ b.toNat ∧ b.toNat < 0xE0) ∨
      (m = 2 ∧ 0xE0 ≤ b.toNat ∧ b.toNat < 0xF0) ∨ (m = 3 ∧ 0xF0 ≤ b.toNat))
    (hvalid : ∀ v, bits * 64 + (low.toNat - 0x80) ≤ v / 64 ^ (m - 1) →
      v / 64 ^ (m - 1) ≤ bits * 64 + (high.toNat - 0x80) → v < 0xD800 ∨ 0xDFFF < v ∧ v < 0x110000)
    (hbegins : ∀ v, v < 0xD800 ∨ 0xDFFF < v ∧ v < 0x110000 →
      ((v < 0x80 ∧ b.toNat = v) ∨ (0x80 ≤ v ∧ v < 0x800 ∧ b.toNat = v / 64 + 0xC0) ∨
        (0x800 ≤ v ∧ v < 0x10000 ∧ b.toNat = v / 4096 + 0xE0) ∨
        (0x10000 ≤ v ∧ v < 0x110000 ∧ b.toNat = v / 262144 + 0xF0) ↔
      bits * 64 + (low.toNat - 0x80) ≤ v / 64 ^ (m - 1) ∧
        v / 64 ^ (m - 1) ≤ bits * 64 + (high.toNat - 0x80))) :
    Begun [b] ⟨m, low, high, bits⟩ := by
  have hfirst (c : Char) : [b] <+: utf8EncodeChar c ↔
      Pending.Covers ⟨m, low, high, bits⟩ c.toNat :=
    singleton_isPrefix_iff.trans (hbegins c.toNat c.valid)
  refine ⟨List.cons_ne_nil _ _, by simp only; omega, hlow, hrange, hhigh,
    fun v hv => hvalid v hv.1 hv.2, fun c hc => ?_, hfirst⟩
  have hbyte := singleton_isPrefix_iff.mp ((hfirst c).mpr hc)
  have hlength := length_cases c
  rw [List.length_singleton]
  simp only
  omega

private theorem toNat_ite_cases (n k : Nat) (x y : UInt8) :
    (n = k ∧ (if n = k then x else y).toNat = x.toNat) ∨
      (n ≠ k ∧ (if n = k then x else y).toNat = y.toNat) := by
  by_cases h : n = k
  · exact .inl ⟨h, by rw [if_pos h]⟩
  · exact .inr ⟨h, by rw [if_neg h]⟩

/-- The ranges of the second byte leave out what would be no character or have a shorter form. -/
theorem lead_describes (b : UInt8) : (lead b).Describes b := by
  have hb := b.toNat_lt
  unfold lead
  dsimp only
  split
  · rename_i hascii
    exact utf8EncodeChar_ofNat hascii
  · split
    · intro c
      rw [singleton_isPrefix_iff]
      omega
    · have h80 : (0x80 : UInt8).toNat = 0x80 := rfl
      have hBF : (0xBF : UInt8).toNat = 0xBF := rfl
      split
      · refine begun_singleton h80.ge (by rw [h80, hBF]; decide) hBF.le (by omega) ?_ ?_ <;>
          norm_num only [h80, hBF] <;> omega
      · split
        · have hlow := toNat_ite_cases b.toNat 0xE0 0xA0 0x80
          have hhigh := toNat_ite_cases b.toNat 0xED 0x9F 0xBF
          rw [h80, show (0xA0 : UInt8).toNat = 0xA0 from rfl] at hlow
          rw [hBF, show (0x9F : UInt8).toNat = 0x9F from rfl] at hhigh
          refine begun_singleton (by omega) (by omega) (by omega) (by omega) ?_ ?_ <;>
            norm_num only <;> omega
        · split
          · have hlow := toNat_ite_cases b.toNat 0xF0 0x90 0x80
            have hhigh := toNat_ite_cases b.toNat 0xF4 0x8F 0xBF
            rw [h80, show (0x90 : UInt8).toNat = 0x90 from rfl] at hlow
            rw [hBF, show (0x8F : UInt8).toNat = 0x8F from rfl] at hhigh
            refine begun_singleton (by omega) (by omega) (by omega) (by omega) ?_ ?_ <;>
              norm_num only <;> omega
          · intro c
            rw [singleton_isPrefix_iff]
            omega

end ByteTape.Text.Utf8
