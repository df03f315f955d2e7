import FourLane.Proofs.SourceText
import Mathlib

/-!
# The bytes of a text

A text is stored in UTF-8: a character below 128 is one byte, its code, and all bytes of any other
character are 128 or more. So a class of codes that does not tell those from 128 on apart has a byte
exactly if it has the character of the byte. Blanks and parentheses can be found either way.
-/
namespace FourLane

def bytesOf (text : String) : List UInt8 := text.toByteArray.data.toList

theorem bytesOf_append (text more : String) :
    bytesOf (text ++ more) = bytesOf text ++ bytesOf more := by
  simp [bytesOf]

theorem toList_utf8Encode (cs : List Char) :
    cs.utf8Encode.data.toList = cs.flatMap String.utf8EncodeChar := by
  induction cs with
  | nil => simp
  | cons c cs ih =>
    rw [List.utf8Encode_cons, List.utf8Encode_singleton, ByteArray.data_append,
      Array.toList_append, ih, List.flatMap_cons]
    simp

theorem bytesOf_eq (text : String) : bytesOf text = text.toList.flatMap String.utf8EncodeChar := by
  rw [bytesOf, ← String.utf8Encode_toList, toList_utf8Encode]

theorem utf8EncodeChar_of_lt {c : Char} (h : c.toNat < 128) :
    String.utf8EncodeChar c = [UInt8.ofNat c.toNat] := by
  have hle : c.val.toNat ≤ 127 := by
    change c.toNat ≤ 127
    omega
  unfold String.utf8EncodeChar
  exact if_pos hle

theorem le_of_mem_utf8EncodeChar {c : Char} (h : 128 ≤ c.toNat) {b : UInt8}
    (hb : b ∈ String.utf8EncodeChar c) : 128 ≤ b.toNat := by
  have hgt : ¬ c.val.toNat ≤ 127 := by
    change ¬ c.toNat ≤ 127
    omega
  unfold String.utf8EncodeChar at hb
  simp only [hgt, if_false] at hb
  split_ifs at hb
  · rcases List.mem_pair.mp hb with rfl | rfl <;> rw [UInt8.toNat_ofNat'] <;> omega
  · simp only [List.mem_cons, List.not_mem_nil, or_false] at hb
    rcases hb with rfl | rfl | rfl <;> rw [UInt8.toNat_ofNat'] <;> omega
  · simp only [List.mem_cons, List.not_mem_nil, or_false] at hb
    rcases hb with rfl | rfl | rfl | rfl <;> rw [UInt8.toNat_ofNat'] <;> omega

/-! ### Classes of codes -/

/-- The class has all codes from 128 on, or none of them. -/
def Uniform (p : Nat → Prop) : Prop := ∀ n, 128 ≤ n → (p n ↔ p 128)

variable {p : Nat → Prop}

theorem Uniform.mem_utf8EncodeChar (hp : Uniform p) {c : Char} {b : UInt8}
    (hb : b ∈ String.utf8EncodeChar c) : p b.toNat ↔ p c.toNat := by
  by_cases h : c.toNat < 128
  · rw [utf8EncodeChar_of_lt h, List.mem_singleton] at hb
    rw [hb, UInt8.toNat_ofNat', Nat.mod_eq_of_lt (by omega)]
  · have hc : 128 ≤ c.toNat := Nat.not_lt.mp h
    exact (hp _ (le_of_mem_utf8EncodeChar hc hb)).trans (hp _ hc).symm

theorem Uniform.forall_mem_bytesOf (hp : Uniform p) (text : String) :
    (∀ b ∈ bytesOf text, p b.toNat) ↔ ∀ c ∈ text.toList, p c.toNat := by
  rw [bytesOf_eq]
  constructor
  · intro h c hc
    obtain ⟨b, hb⟩ := List.exists_mem_of_ne_nil _ (String.utf8EncodeChar_ne_nil (c := c))
    exact (hp.mem_utf8EncodeChar hb).mp (h b (List.mem_flatMap.mpr ⟨c, hc, hb⟩))
  · intro h b hb
    obtain ⟨c, hc, hb⟩ := List.mem_flatMap.mp hb
    exact (hp.mem_utf8EncodeChar hb).mpr (h c hc)

theorem Uniform.not (hp : Uniform p) : Uniform fun n => ¬ p n := fun n hn => not_congr (hp n hn)

def IsBlankByte (b : UInt8) : Prop := b.toNat ≤ 0x20

instance (b : UInt8) : Decidable (IsBlankByte b) := inferInstanceAs (Decidable (b.toNat ≤ 0x20))

/-- Neither a blank nor a parenthesis. -/
def IsAtomByte (b : UInt8) : Prop := ¬ IsBlankByte b ∧ b.toNat ≠ '('.toNat ∧ b.toNat ≠ ')'.toNat

instance (b : UInt8) : Decidable (IsAtomByte b) := inferInstanceAs (Decidable (_ ∧ _))

theorem uniform_blank : Uniform fun n => n ≤ 0x20 := by
  intro n hn
  omega

theorem uniform_atom : Uniform fun n => ¬ n ≤ 0x20 ∧ n ≠ '('.toNat ∧ n ≠ ')'.toNat := by
  intro n hn
  have hopen : '('.toNat = 40 := rfl
  have hclose : ')'.toNat = 41 := rfl
  omega

theorem forall_isBlankByte_iff (text : String) :
    (∀ b ∈ bytesOf text, IsBlankByte b) ↔ ∀ c ∈ text.toList, Token.isBlank c = true := by
  have h := uniform_blank.forall_mem_bytesOf text
  simpa only [IsBlankByte, Token.isBlank, decide_eq_true_eq] using h

theorem forall_not_isBlankByte_iff (text : String) :
    (∀ b ∈ bytesOf text, ¬ IsBlankByte b) ↔ ∀ c ∈ text.toList, Token.isBlank c = false := by
  have h := uniform_blank.not.forall_mem_bytesOf text
  simpa only [IsBlankByte, Token.isBlank, decide_eq_false_iff_not] using h

theorem forall_isAtomByte_iff (text : String) :
    (∀ b ∈ bytesOf text, IsAtomByte b) ↔ ∀ c ∈ text.toList, Token.IsAtomChar c := by
  have h := uniform_atom.forall_mem_bytesOf text
  simpa only [IsAtomByte, IsBlankByte, Token.IsAtomChar, Token.isBlank, decide_eq_false_iff_not,
    ne_eq, Char.toNat_inj] using h

end FourLane
