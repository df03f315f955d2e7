import FourLane.Proofs.TextBytes
import Mathlib

/-!
# Offsets into the bytes of a text

A scanner that goes over the bytes of a text takes bytes by their index and cuts slices out of the
text. An index has to be in range, and both ends of a slice have to be boundaries of characters.
Here both are checked, so that a scanner that does not mind them fails. An offset in front of some of
the characters of a text is a boundary, and the bytes from there on are those of these characters.
-/
namespace FourLane

/-- What a scanner of bytes can do wrong. -/
inductive ScanFault where
  /-- There is no byte with that index. -/
  | index
  /-- The ends of a slice are in the wrong order, out of range or within a character. -/
  | slice
  /-- A count does not fit its 32 bits. -/
  | overflow

def encode (cs : List Char) : List UInt8 := cs.flatMap String.utf8EncodeChar

/-- The byte of a character below 128. -/
def byteOf (c : Char) : UInt8 := UInt8.ofNat c.toNat

def byteAt (text : String) (i : Nat) : Except ScanFault UInt8 :=
  match (bytesOf text)[i]? with
  | some b => .ok b
  | none => .error .index

def bytesFrom (text : String) (start : Nat) : Except ScanFault (List UInt8) :=
  if start ≤ (bytesOf text).length then .ok ((bytesOf text).drop start) else .error .slice

def slice (text : String) (start stop : Nat) : Except ScanFault String :=
  if start ≤ stop ∧ String.Pos.Raw.IsValid text ⟨start⟩ ∧ String.Pos.Raw.IsValid text ⟨stop⟩ then
    .ok (String.Pos.Raw.extract text ⟨start⟩ ⟨stop⟩)
  else .error .slice

/-! ### Classes of bytes -/

/-- A class of bytes has all bytes of a character if the class of characters has it, and none
otherwise. -/
def Agrees (p : UInt8 → Bool) (q : Char → Bool) : Prop :=
  ∀ c, ∀ b ∈ String.utf8EncodeChar c, p b = q c

theorem Uniform.agrees {P : Nat → Prop} [DecidablePred P] (h : Uniform P) :
    Agrees (fun b => decide (P b.toNat)) fun c => decide (P c.toNat) := by
  intro c b hb
  exact decide_eq_decide.mpr (h.mem_utf8EncodeChar hb)

theorem encode_cons (c : Char) (cs : List Char) :
    encode (c :: cs) = String.utf8EncodeChar c ++ encode cs := List.flatMap_cons

theorem encode_append (cs more : List Char) : encode (cs ++ more) = encode cs ++ encode more :=
  List.flatMap_append

theorem length_encode (cs : List Char) : (encode cs).length = String.utf8Len cs := by
  induction cs with
  | nil => rfl
  | cons c cs ih =>
    rw [encode_cons, List.length_append, ih, String.length_utf8EncodeChar, String.utf8Len_cons,
      Nat.add_comm]

/-- The loop over the bytes of a class stops where the one over its characters does. -/
theorem Agrees.takeWhile_encode {p : UInt8 → Bool} {q : Char → Bool} (h : Agrees p q)
    (cs : List Char) : (encode cs).takeWhile p = encode (cs.takeWhile q) := by
  induction cs with
  | nil => rfl
  | cons c cs ih =>
    rw [encode_cons]
    by_cases hc : q c = true
    · have hall : ∀ b ∈ String.utf8EncodeChar c, p b = true := fun b hb => (h c b hb).trans hc
      rw [List.takeWhile_append_of_pos hall, ih, List.takeWhile_cons_of_pos hc, encode_cons]
    · rw [List.takeWhile_cons_of_neg hc]
      obtain ⟨b, bs, hbytes⟩ := List.exists_cons_of_ne_nil (String.utf8EncodeChar_ne_nil (c := c))
      have hb : p b = q c := h c b (by rw [hbytes]; exact List.mem_cons_self)
      rw [hbytes, List.cons_append, List.takeWhile_cons_of_neg (by rwa [hb])]
      rfl

/-! ### Characters below 128 -/

theorem toNat_byteOf {c : Char} (h : c.toNat < 128) : (byteOf c).toNat = c.toNat := by
  rw [byteOf, UInt8.toNat_ofNat', Nat.mod_eq_of_lt (by omega)]

theorem encode_of_lt {cs : List Char} (h : ∀ c ∈ cs, c.toNat < 128) :
    encode cs = cs.map byteOf := by
  induction cs with
  | nil => rfl
  | cons c cs ih =>
    rw [encode_cons, utf8EncodeChar_of_lt (h c List.mem_cons_self),
      ih fun d hd => h d (List.mem_cons_of_mem c hd)]
    rfl

theorem utf8Len_of_lt {cs : List Char} (h : ∀ c ∈ cs, c.toNat < 128) :
    String.utf8Len cs = cs.length := by
  rw [← length_encode, encode_of_lt h, List.length_map]

theorem head?_encode_eq_some_iff {a : Char} (ha : a.toNat < 128) (cs : List Char) :
    (encode cs).head? = some (byteOf a) ↔ cs.head? = some a := by
  cases cs with
  | nil => simp [encode]
  | cons c cs =>
    rw [encode_cons, List.head?_cons, Option.some_inj]
    have hbyte := toNat_byteOf ha
    by_cases hc : c.toNat < 128
    · rw [utf8EncodeChar_of_lt hc, List.singleton_append, List.head?_cons, Option.some_inj,
        ← UInt8.toNat_inj, hbyte]
      change (byteOf c).toNat = a.toNat ↔ c = a
      rw [toNat_byteOf hc, Char.toNat_inj]
    · obtain ⟨b, bs, hbytes⟩ := List.exists_cons_of_ne_nil (String.utf8EncodeChar_ne_nil (c := c))
      have hb := le_of_mem_utf8EncodeChar (Nat.not_lt.mp hc)
        (show b ∈ _ by rw [hbytes]; exact List.mem_cons_self)
      rw [hbytes, List.cons_append, List.head?_cons, Option.some_inj]
      constructor
      · rintro rfl
        omega
      · rintro rfl
        exact absurd ha hc

/-! ### Offsets in front of characters -/

/-- The offset is the one in front of the given rest of the text. -/
def InFront (text : String) (pos : Nat) (rest : List Char) : Prop :=
  ∃ before, text.toList = before ++ rest ∧ pos = String.utf8Len before

namespace InFront

variable {text : String} {pos : Nat} {cs rest : List Char}

theorem start (text : String) : InFront text 0 text.toList := ⟨[], rfl, rfl⟩

theorem append (h : InFront text pos (cs ++ rest)) : InFront text (pos + String.utf8Len cs) rest := by
  obtain ⟨before, htext, rfl⟩ := h
  exact ⟨before ++ cs, by rw [htext, List.append_assoc], (String.utf8Len_append before cs).symm⟩

theorem cons {c : Char} (h : InFront text pos (c :: rest)) (hc : c.toNat < 128) :
    InFront text (pos + 1) rest := by
  have hsize : String.utf8Len [c] = 1 := utf8Len_of_lt (List.forall_mem_singleton.mpr hc)
  have happend := (show InFront text pos ([c] ++ rest) from h).append
  rwa [hsize] at happend

theorem dropWhile (h : InFront text pos rest) {q : Char → Bool}
    (hq : ∀ c, q c = true → c.toNat < 128) :
    InFront text (pos + (rest.takeWhile q).length) (rest.dropWhile q) := by
  rw [← utf8Len_of_lt fun c hc => hq c (List.mem_takeWhile_imp hc)]
  apply append
  rwa [List.takeWhile_append_dropWhile]

theorem drop_bytesOf (h : InFront text pos rest) : (bytesOf text).drop pos = encode rest := by
  obtain ⟨before, htext, rfl⟩ := h
  have hbytes : bytesOf text = encode before ++ encode rest := by
    rw [bytesOf_eq, htext]
    exact encode_append before rest
  rw [hbytes, ← length_encode, List.drop_left]

theorem getElem?_bytesOf (h : InFront text pos rest) : (bytesOf text)[pos]? = (encode rest).head? := by
  rw [← h.drop_bytesOf, List.head?_drop]

/-- A character below 128 is found by its byte at its offset. -/
theorem getElem?_bytesOf_eq_iff (h : InFront text pos rest) {a : Char} (ha : a.toNat < 128) :
    (bytesOf text)[pos]? = some (byteOf a) ↔ rest.head? = some a := by
  rw [h.getElem?_bytesOf, head?_encode_eq_some_iff ha]

theorem exists_getElem? {c : Char} (h : InFront text pos (c :: rest)) :
    ∃ b ∈ String.utf8EncodeChar c, (bytesOf text)[pos]? = some b := by
  obtain ⟨b, bs, hbytes⟩ := List.exists_cons_of_ne_nil (String.utf8EncodeChar_ne_nil (c := c))
  refine ⟨b, by rw [hbytes]; exact List.mem_cons_self, ?_⟩
  rw [h.getElem?_bytesOf, encode_cons, hbytes]
  rfl

theorem length_bytesOf (h : InFront text pos rest) :
    (bytesOf text).length = pos + String.utf8Len rest := by
  obtain ⟨before, htext, rfl⟩ := h
  rw [bytesOf_eq, htext]
  change (encode (before ++ rest)).length = _
  rw [length_encode, String.utf8Len_append]

theorem isValid (h : InFront text pos rest) : String.Pos.Raw.IsValid text ⟨pos⟩ := by
  obtain ⟨before, htext, rfl⟩ := h
  rw [← String.ofList_toList (s := text), String.Pos.Raw.isValid_ofList]
  refine ⟨before.length, ?_⟩
  rw [htext, List.take_left, String.utf8ByteSize_ofList]

theorem exists_of_isValid (h : String.Pos.Raw.IsValid text ⟨pos⟩) : ∃ rest, InFront text pos rest := by
  rw [← String.ofList_toList (s := text), String.Pos.Raw.isValid_ofList] at h
  obtain ⟨n, hn⟩ := h
  rw [String.utf8ByteSize_ofList] at hn
  exact ⟨text.toList.drop n, text.toList.take n, (List.take_append_drop n _).symm, hn⟩

theorem slice_eq (h : InFront text pos (cs ++ rest)) :
    slice text pos (pos + String.utf8Len cs) = .ok (String.ofList cs) := by
  rw [slice, if_pos ⟨Nat.le_add_right _ _, h.isValid, h.append.isValid⟩]
  obtain ⟨before, htext, rfl⟩ := h
  have hextract := String.extract_of_valid before cs rest
  rw [List.append_assoc, ← htext, String.ofList_toList] at hextract
  rw [hextract]

end InFront

theorem length_bytesOf (text : String) : (bytesOf text).length = text.utf8ByteSize := by
  rw [(InFront.start text).length_bytesOf, Nat.zero_add, ← String.utf8ByteSize_ofList,
    String.ofList_toList]

end FourLane
