import ByteTape.Program.File
import ByteTape.Proofs.Text.Reading

/-! Programs from files have the instructions that the files have. Whatever else is in a file, well
formed or not, becomes comments. -/
namespace ByteTape
namespace Instruction

def ofByte? (b : UInt8) : Option Instruction := ofChar? (Char.ofNat b.toNat)

private theorem toNat_symbol_lt (i : Instruction) : i.symbol.toNat < 0x80 := by
  cases i <;> decide

private theorem ofChar?_of_le {c : Char} (h : 0x80 ≤ c.toNat) : ofChar? c = none := by
  cases hc : ofChar? c with
  | none => rfl
  | some i =>
    obtain rfl := ofChar?_eq_some_iff.mp hc
    have := i.toNat_symbol_lt
    omega

private theorem ofByte?_of_le {b : UInt8} (h : 0x80 ≤ b.toNat) : ofByte? b = none := by
  apply ofChar?_of_le
  rwa [Text.Utf8.toNat_ofNat_byte]

end Instruction

namespace Program
open Text.Utf8

private theorem filterMap_filter_ascii {α β : Type} (f : α → Option β) (n : α → Nat)
    (hf : ∀ x, 0x80 ≤ n x → f x = none) (xs : List α) :
    (xs.filter (n · < 0x80)).filterMap f = xs.filterMap f := by
  rw [List.filterMap_filter]
  congr 1
  funext x
  rcases Nat.lt_or_ge (n x) 0x80 with hx | hx
  · simp [hx]
  · simp [hf x hx]

private theorem toList_data_toByteArray (text : List Char) :
    (String.ofList text).toByteArray.data.toList = encode text := by
  rw [String.toByteArray_ofList, List.utf8Encode, List.toList_data_toByteArray]
  rfl

private theorem toByteArray_source {bytes : List UInt8} (h : bytes.toByteArray.IsValidUTF8) :
    (ofBytes bytes).source.toByteArray = bytes.toByteArray := by
  obtain ⟨text, htext⟩ := h
  obtain rfl : bytes = encode text := List.toByteArray_inj.mp htext
  have hsource : (ofBytes (encode text)).source = String.ofList text := by
    rw [source, ofBytes, toList_ofList, decodeLossy_encode]
  rw [hsource, String.toByteArray_ofList]
  exact htext.symm

/-- Loading is total, and it reads a file as units: characters where there are any, and elsewhere one
replacement character for each malformed stretch. The ASCII characters of the program are the ASCII
bytes of the file in their order, and so are the instructions. Well-formed files are what their
programs are encoded as, every program is loaded again from its own encoding, and none has more
characters than its file has bytes. -/
theorem ofFile_keeps_instructions (path : String) (bytes : List UInt8) :
    ∃ p, ofFile path (.ok bytes) = .ok p ∧
      (∃ us, (∀ vs, Text.Utf8.Reading bytes vs ↔ vs = us) ∧ p.toList = us.map (·.getD '\uFFFD')) ∧
      p.toList.filter (·.toNat < 0x80) =
        (bytes.filter (·.toNat < 0x80)).map (fun b => Char.ofNat b.toNat) ∧
      p.toList.filterMap Instruction.ofChar? = bytes.filterMap Instruction.ofByte? ∧
      (bytes.toByteArray.IsValidUTF8 → p.source.toByteArray = bytes.toByteArray) ∧
      (∀ path', ofFile path' (.ok p.source.toByteArray.data.toList) = .ok p) ∧
      p.size ≤ bytes.length := by
  have hreading := reading_units bytes
  have hascii : (ofBytes bytes).toList.filter (·.toNat < 0x80) = _ := hreading.filter_ascii
  refine ⟨ofBytes bytes, rfl, ⟨units bytes, fun _ => reading_iff, rfl⟩, hascii, ?_,
    toByteArray_source, fun path' => ?_, ?_⟩
  · calc (ofBytes bytes).toList.filterMap Instruction.ofChar?
      _ = ((ofBytes bytes).toList.filter (·.toNat < 0x80)).filterMap Instruction.ofChar? :=
        (filterMap_filter_ascii _ Char.toNat (fun _ => Instruction.ofChar?_of_le) _).symm
      _ = (bytes.filter (·.toNat < 0x80)).filterMap Instruction.ofByte? := by
        rw [hascii, List.filterMap_map]
        rfl
      _ = bytes.filterMap Instruction.ofByte? :=
        filterMap_filter_ascii _ UInt8.toNat (fun _ => Instruction.ofByte?_of_le) _
  · rw [source, toList_data_toByteArray]
    have hagain : ofBytes (encode (ofBytes bytes).toList) = ofBytes bytes := by
      rw [ofBytes, decodeLossy_encode]
      rfl
    rw [ofFile, hagain]
  · rw [size_eq_length, ofBytes, toList_ofList, decodeLossy, List.length_map]
    exact hreading.length_le

example : (ofBytes [0x2B, 0xE2, 0x82, 0x2E, 0xFF]).toList = ['+', '\uFFFD', '.', '\uFFFD'] := by
  decide

end Program
end ByteTape
