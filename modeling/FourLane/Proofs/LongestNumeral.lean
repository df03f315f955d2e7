import FourLane.Proofs.NearestValue
import FourLane.Proofs.NumeralGrammar
import Mathlib

/-!
# The longest numeral at the start of a text

A text is read as the longest numeral that it starts with. The kinds of numerals begin with different
characters, except that the zero in front of the mark of a hexadecimal numeral is itself a decimal
one. So the order in which they are tried does not matter but for that, and what is read is the
number that the longest beginning spells.
-/
namespace FourLane

variable {whole places : List Char}

/-! ### Words -/

namespace Numeral

theorem startsWith_iff (word text : List Char) :
    startsWith word text = true ↔ ∃ part, part <+: text ∧ part.map Char.toLower = word := by
  rw [startsWith, beq_iff_eq]
  constructor
  · exact fun h => ⟨_, List.take_prefix _ _, h⟩
  · rintro ⟨part, ⟨more, rfl⟩, rfl⟩
    rw [List.length_map, List.take_left]

/-- A text starts with the word if it starts with a longer one that the word begins. -/
theorem startsWith_of_map_eq {part text : List Char} (word more : List Char) (hpart : part <+: text)
    (h : part.map Char.toLower = word ++ more) : startsWith word text = true :=
  (startsWith_iff word text).mpr
    ⟨part.take word.length, (List.take_prefix _ _).trans hpart,
      by rw [List.map_take, h, List.take_left]⟩

theorem length_of_map_eq {part word : List Char} (h : part.map Char.toLower = word) :
    part.length = word.length := by
  rw [← h, List.length_map]

theorem startsWith_cons_of_ne {w c : Char} (word text : List Char) (h : c.toLower ≠ w) :
    startsWith (w :: word) (c :: text) = false := by
  simp [startsWith, h]

theorem hexadecimal?_eq_some_iff (text : List Char) (n : Numeral) :
    hexadecimal? text = some n ↔ ∃ x cs whole places rest, text = '0' :: x :: cs ∧ x.toLower = 'x' ∧
      splitDigits isHexDigit cs = some (whole, places, rest) ∧
        n = .hexadecimal whole places (exponentAt 'p' rest) := by
  constructor
  · intro h
    unfold hexadecimal? at h
    split at h
    · rename_i x cs
      split_ifs at h with hx
      obtain ⟨⟨whole, places, rest⟩, hsplit, rfl⟩ := Option.map_eq_some_iff.mp h
      exact ⟨x, cs, whole, places, rest, rfl, hx, hsplit, rfl⟩
    · cases h
  · rintro ⟨x, cs, whole, places, rest, rfl, hx, hsplit, rfl⟩
    rw [hexadecimal?, if_pos hx, hsplit]
    rfl

theorem decimal?_eq_some_iff (text : List Char) (n : Numeral) :
    decimal? text = some n ↔ ∃ whole places rest,
      splitDigits Char.isDigit text = some (whole, places, rest) ∧
        n = .decimal whole places (exponentAt 'e' rest) := by
  rw [decimal?, Option.map_eq_some_iff]
  constructor
  · rintro ⟨⟨whole, places, rest⟩, hsplit, rfl⟩
    exact ⟨whole, places, rest, hsplit, rfl⟩
  · rintro ⟨whole, places, rest, hsplit, rfl⟩
    exact ⟨_, hsplit, rfl⟩

/-- The characters that a spelling of the numeral may begin with. -/
def Opens (c : Char) : Numeral → Prop
  | .infinity => c.toLower = 'i'
  | .nan => c.toLower = 'n'
  | .hexadecimal _ _ _ => c = '0'
  | .decimal _ _ _ => c.isDigit ∨ c = '.'

end Numeral

open Numeral

theorem NumeralText.exists_opens {n : Numeral} {text : List Char} (h : NumeralText n text) :
    ∃ c cs, text = c :: cs ∧ n.Opens c := by
  have hword {w : Char} {word : List Char} (h : text.map Char.toLower = w :: word) :
      ∃ c cs, text = c :: cs ∧ c.toLower = w := by
    obtain ⟨c, cs, htext, hc, -⟩ := List.map_eq_cons_iff.mp h
    exact ⟨c, cs, htext, hc⟩
  cases h with
  | inf h => exact hword h
  | infinity h => exact hword h
  | nan h => exact hword h
  | hexadecimal hx h => exact ⟨_, _, rfl, rfl⟩
  | decimal h =>
    obtain ⟨digits, tail, rfl, hdigits, htail⟩ := h
    obtain ⟨c, cs, rfl⟩ := List.exists_cons_of_ne_nil hdigits.ne_nil
    exact ⟨c, cs ++ tail, rfl, hdigits.mem c List.mem_cons_self⟩

theorem Numeral.Opens.not_sign {c : Char} {n : Numeral} (h : n.Opens c) : c ≠ '-' ∧ c ≠ '+' := by
  constructor <;> rintro rfl <;> cases n <;> simp [Opens] at h

/-! ### Numerals -/

theorem Numeral.ofText?_cons_of_ne (c : Char) (cs : List Char) (hi : c.toLower ≠ 'i')
    (hn : c.toLower ≠ 'n') :
    ofText? (c :: cs) = (hexadecimal? (c :: cs)).orElse fun _ => decimal? (c :: cs) := by
  rw [ofText?, startsWith_cons_of_ne _ _ hi, startsWith_cons_of_ne _ _ hn]
  rfl

theorem NumeralText.ofText? {n : Numeral} {text : List Char} (h : NumeralText n text) :
    Numeral.ofText? text = some n := by
  obtain ⟨c, cs, htext, hopens⟩ := h.exists_opens
  cases h with
  | inf h =>
    have hinf := startsWith_of_map_eq ['i', 'n', 'f'] [] List.prefix_rfl h
    rw [Numeral.ofText?, if_pos hinf]
  | infinity h =>
    have hinf := startsWith_of_map_eq ['i', 'n', 'f'] ['i', 'n', 'i', 't', 'y'] List.prefix_rfl h
    rw [Numeral.ofText?, if_pos hinf]
  | nan h =>
    have hnan := startsWith_of_map_eq ['n', 'a', 'n'] [] List.prefix_rfl h
    have hinf : startsWith ['i', 'n', 'f'] text = false := by
      rw [htext, startsWith_cons_of_ne _ _ (by rw [hopens]; decide)]
    rw [Numeral.ofText?, if_neg (by rw [hinf]; decide), if_pos hnan]
  | hexadecimal hx h =>
    obtain ⟨rest, hsplit, hexponent⟩ := h.exists_splitDigits marks_hexadecimal
    have hx' := (toLower_eq_iff _ 'x' 'X' (by decide)).mpr hx
    rw [← isHexDigit_eq] at hsplit
    rw [ofText?_cons_of_ne '0' _ (by decide) (by decide), (hexadecimal?_eq_some_iff _ _).mpr
      ⟨_, _, _, _, _, rfl, hx', hsplit, by rw [hexponent]⟩]
    rfl
  | decimal h =>
    obtain ⟨rest, hsplit, hexponent⟩ := h.exists_splitDigits marks_decimal
    have hhex : hexadecimal? text = none := by
      rw [Option.eq_none_iff_forall_ne_some]
      intro n hn
      obtain ⟨x, cs, _, _, _, rfl, hx, -, -⟩ := (hexadecimal?_eq_some_iff _ _).mp hn
      exact h.toLower_ne x (by simp) hx
    have hi : c.toLower ≠ 'i' := toLower_ne_of_digit hopens (by decide)
    have hn : c.toLower ≠ 'n' := toLower_ne_of_digit hopens (by decide)
    subst htext
    rw [ofText?_cons_of_ne c cs hi hn, hhex, (decimal?_eq_some_iff _ _).mpr
      ⟨_, _, _, hsplit, by rw [hexponent]⟩]
    rfl

theorem longest_infinity {text : List Char} (h : startsWith ['i', 'n', 'f'] text = true) :
    ∃ part, NumeralText .infinity part ∧ Longest (fun t => ∃ n, NumeralText n t) text part := by
  obtain ⟨short, hshort, hword⟩ := (startsWith_iff _ _).mp h
  -- Nothing but an infinity begins with its first letter.
  have hkind {n : Numeral} {other : List Char} (hother : other <+: text) (hn : NumeralText n other) :
      other.map Char.toLower = ['i', 'n', 'f'] ∨
        other.map Char.toLower = ['i', 'n', 'f', 'i', 'n', 'i', 't', 'y'] := by
    obtain ⟨c, cs, rfl, hopens⟩ := hn.exists_opens
    obtain ⟨d, ds, rfl, hd, -⟩ := List.map_eq_cons_iff.mp hword
    obtain ⟨ds', rfl⟩ := hshort
    obtain rfl : c = d := (List.cons_prefix_cons.mp hother).1
    cases hn with
    | inf h => exact .inl h
    | infinity h => exact .inr h
    | nan h => exact absurd (hd.symm.trans hopens) (by decide)
    | hexadecimal hx h => exact absurd hd (by decide)
    | decimal h => exact absurd hd (toLower_ne_of_digit hopens (by decide))
  by_cases hlong : ∃ part, part <+: text ∧
      part.map Char.toLower = ['i', 'n', 'f', 'i', 'n', 'i', 't', 'y']
  · obtain ⟨part, hpart, hword'⟩ := hlong
    refine ⟨part, .infinity hword', hpart, ⟨_, .infinity hword'⟩, ?_⟩
    rintro other hother ⟨n, hn⟩
    rw [length_of_map_eq hword']
    rcases hkind hother hn with h | h
    · rw [length_of_map_eq h]
      decide
    · rw [length_of_map_eq h]
  · refine ⟨short, .inf hword, hshort, ⟨_, .inf hword⟩, ?_⟩
    rintro other hother ⟨n, hn⟩
    have hword' := (hkind hother hn).resolve_right fun h => hlong ⟨other, hother, h⟩
    rw [length_of_map_eq hword, length_of_map_eq hword']

theorem longest_nan {text : List Char} (h : startsWith ['n', 'a', 'n'] text = true) :
    ∃ part, NumeralText .nan part ∧ Longest (fun t => ∃ n, NumeralText n t) text part := by
  obtain ⟨part, hpart, hword⟩ := (startsWith_iff _ _).mp h
  refine ⟨part, .nan hword, hpart, ⟨_, .nan hword⟩, ?_⟩
  rintro other hother ⟨n, hn⟩
  obtain ⟨c, cs, rfl, hopens⟩ := hn.exists_opens
  have hlength := length_of_map_eq hword
  obtain ⟨d, ds, rfl, hd, -⟩ := List.map_eq_cons_iff.mp hword
  obtain ⟨more, rfl⟩ := hpart
  obtain rfl : c = d := (List.cons_prefix_cons.mp hother).1
  cases hn with
  | inf h => exact absurd (hd.symm.trans hopens) (by decide)
  | infinity h => exact absurd (hd.symm.trans hopens) (by decide)
  | nan h =>
    rw [hlength, length_of_map_eq h]
  | hexadecimal hx h => exact absurd hd (by decide)
  | decimal h => exact absurd hd (toLower_ne_of_digit hopens (by decide))

theorem longest_hexadecimal {text : List Char} {n : Numeral} (h : hexadecimal? text = some n) :
    ∃ part, NumeralText n part ∧ Longest (fun t => ∃ n, NumeralText n t) text part := by
  obtain ⟨x, cs, whole, places, rest, rfl, hx, hsplit, rfl⟩ := (hexadecimal?_eq_some_iff _ _).mp h
  rw [isHexDigit_eq] at hsplit
  obtain ⟨part, hpart, hlongest⟩ := longest_scaled marks_hexadecimal hsplit
  have hx' := (toLower_eq_iff _ 'x' 'X' (by decide)).mp hx
  have hstarts : '0' :: x :: part <+: '0' :: x :: cs := by
    rw [List.cons_prefix_cons, List.cons_prefix_cons]
    exact ⟨rfl, rfl, hlongest.starts⟩
  refine ⟨'0' :: x :: part, .hexadecimal hx' hpart, hstarts, ⟨_, .hexadecimal hx' hpart⟩, ?_⟩
  rintro other hother ⟨n, hn⟩
  obtain ⟨c, ds, rfl, hopens⟩ := hn.exists_opens
  obtain ⟨rfl, hds⟩ := List.cons_prefix_cons.mp hother
  cases hn with
  | inf hword => exact absurd hopens (show '0'.toLower ≠ 'i' by decide)
  | infinity hword => exact absurd hopens (show '0'.toLower ≠ 'i' by decide)
  | nan hword => exact absurd hopens (show '0'.toLower ≠ 'n' by decide)
  | hexadecimal hx hscaled =>
    have hle := hlongest.longest _ (List.cons_prefix_cons.mp hds).2 ⟨_, _, _, hscaled⟩
    simpa only [List.length_cons, Nat.add_le_add_iff_right] using hle
  | decimal hscaled =>
    -- Of a decimal numeral there is only the zero in front of the mark.
    cases ds with
    | nil => simp
    | cons d ds =>
      obtain rfl : d = x := (List.cons_prefix_cons.mp hds).1
      exact absurd hx (hscaled.toLower_ne d (by simp))

/-- Where no word and no hexadecimal numeral stands, numerals are decimal. -/
theorem NumeralText.exists_decimal {text part : List Char} {n : Numeral}
    (hinf : startsWith ['i', 'n', 'f'] text = false) (hnan : startsWith ['n', 'a', 'n'] text = false)
    (hhex : hexadecimal? text = none) (hpart : part <+: text) (h : NumeralText n part) :
    ∃ whole places exponent, ScaledText Char.isDigit 'e' whole places exponent part := by
  cases h with
  | inf h =>
    have hstarts := startsWith_of_map_eq ['i', 'n', 'f'] [] hpart h
    simp [hinf] at hstarts
  | infinity h =>
    have hstarts := startsWith_of_map_eq ['i', 'n', 'f'] ['i', 'n', 'i', 't', 'y'] hpart h
    simp [hinf] at hstarts
  | nan h =>
    have hstarts := startsWith_of_map_eq ['n', 'a', 'n'] [] hpart h
    simp [hnan] at hstarts
  | @hexadecimal x whole places body exponent hx h =>
    obtain ⟨more, rfl⟩ := hpart
    have hx' := (toLower_eq_iff x 'x' 'X' (by decide)).mpr hx
    cases hsplit : splitDigits isHexDigit (body ++ more) with
    | none =>
      rw [isHexDigit_eq] at hsplit
      exact absurd h (not_scaledText marks_hexadecimal hsplit (List.prefix_append body more))
    | some r =>
      have hsome := (hexadecimal?_eq_some_iff _ _).mpr ⟨x, _, r.1, r.2.1, r.2.2, rfl, hx', hsplit, rfl⟩
      rw [List.cons_append, List.cons_append, hsome] at hhex
      cases hhex
  | decimal h => exact ⟨_, _, _, h⟩

/-- The longest numeral at the start of a text is the one that is read there. -/
theorem longest_ofText? {text : List Char} {n : Numeral} (h : Numeral.ofText? text = some n) :
    ∃ part, NumeralText n part ∧ Longest (fun t => ∃ n, NumeralText n t) text part := by
  rw [Numeral.ofText?] at h
  split_ifs at h with hinf hnan
  · cases h
    exact longest_infinity hinf
  · cases h
    exact longest_nan hnan
  · cases hhex : hexadecimal? text with
    | some n' =>
      rw [hhex] at h
      cases h
      exact longest_hexadecimal hhex
    | none =>
      rw [hhex] at h
      obtain ⟨whole, places, rest, hsplit, rfl⟩ := (decimal?_eq_some_iff text n).mp h
      obtain ⟨part, hpart, hlongest⟩ := longest_scaled marks_decimal hsplit
      refine ⟨part, .decimal hpart, hlongest.starts, ⟨_, .decimal hpart⟩, ?_⟩
      rintro other hother ⟨n', hn'⟩
      exact hlongest.longest other hother
        (hn'.exists_decimal (by simpa using hinf) (by simpa using hnan) hhex hother)

theorem not_numeralText {text part : List Char} {n : Numeral} (h : Numeral.ofText? text = none)
    (hpart : part <+: text) : ¬ NumeralText n part := by
  intro hn
  rw [Numeral.ofText?] at h
  split_ifs at h with hinf hnan
  cases hhex : hexadecimal? text with
  | some n' =>
    rw [hhex] at h
    cases h
  | none =>
    rw [hhex] at h
    obtain ⟨whole, places, exponent, hscaled⟩ :=
      hn.exists_decimal (by simpa using hinf) (by simpa using hnan) hhex hpart
    have hsplit : splitDigits Char.isDigit text = none := Option.map_eq_none_iff.mp h
    exact not_scaledText marks_decimal hsplit hpart hscaled

/-! ### Signed numerals -/

theorem NumeralText.head_not_sign {n : Numeral} {text : List Char} (h : NumeralText n text) :
    ∀ c ∈ text.head?, c ≠ '-' ∧ c ≠ '+' := by
  obtain ⟨c, cs, rfl, hopens⟩ := h.exists_opens
  rintro _ ⟨⟩
  exact hopens.not_sign

theorem readNumber_eq (text : List Char) :
    readNumber text = if (splitSign text).1
      then (((ofText? (splitSign text).2).map Numeral.value).getD (.zero false)).neg
      else ((ofText? (splitSign text).2).map Numeral.value).getD (.zero false) :=
  rfl

theorem SignedText.readNumber {negative : Bool} {n : Numeral} {text : List Char}
    (h : SignedText negative n text) :
    FourLane.readNumber text = if negative then n.value.neg else n.value := by
  obtain ⟨sign, body, rfl, hsign, hbody⟩ := h
  rw [readNumber_eq, hsign.splitSign_append hbody.head_not_sign, hbody.ofText?]
  rfl

theorem longest_signed {text : List Char} {n : Numeral} (h : ofText? (splitSign text).2 = some n) :
    ∃ part, SignedText (splitSign text).1 n part ∧
      Longest (fun t => ∃ negative n, SignedText negative n t) text part := by
  obtain ⟨sign, htext, hsign, hlongest⟩ := longest_splitSign text
  obtain ⟨body, hbody, hlongest'⟩ := longest_ofText? h
  have happend := hlongest.append htext hlongest' fun part ⟨n', hpart⟩ c hc hmem => by
    rcases hsign.mem c hmem with rfl | rfl
    · exact (hpart.head_not_sign _ hc).1 rfl
    · exact (hpart.head_not_sign _ hc).2 rfl
  have hsigned : SignedText (splitSign text).1 n (sign ++ body) := ⟨sign, body, rfl, hsign, hbody⟩
  refine ⟨_, hsigned, happend.starts, ⟨_, _, hsigned⟩, ?_⟩
  rintro other hother ⟨negative, n', a, b, rfl, ha, hb⟩
  exact happend.longest _ hother ⟨a, b, rfl, ⟨_, ha⟩, ⟨_, hb⟩⟩

theorem SignedText.exists_ofText? {negative : Bool} {n : Numeral} {text part : List Char}
    (h : SignedText negative n part) (hpart : part <+: text) :
    ∃ n', ofText? (splitSign text).2 = some n' := by
  obtain ⟨sign, body, rfl, hsign, hbody⟩ := h
  obtain ⟨more, rfl⟩ := hpart
  have hsplit : splitSign (sign ++ (body ++ more)) = (negative, body ++ more) := by
    apply hsign.splitSign_append
    obtain ⟨c, cs, rfl, hopens⟩ := hbody.exists_opens
    rintro _ ⟨⟩
    exact hopens.not_sign
  rw [List.append_assoc, hsplit, ← Option.ne_none_iff_exists']
  intro hnone
  exact not_numeralText hnone (List.prefix_append body more) hbody

/-! ### Decimal values -/

theorem ScaledText.isNearest {exponent : Exponent} {text : List Char}
    (h : ScaledText Char.isDigit 'e' whole places exponent text) :
    (Numeral.decimal whole places exponent).value.IsNearest
      (Nat.ofDigitChars 10 (whole ++ places) 0 * 10 ^ (exponent.value - places.length)) := by
  obtain ⟨digits, tail, -, hdigits, htail⟩ := h
  have hexponent : decimalExponent places.length exponent = exponent.value - places.length := by
    simp only [decimalExponent, Exponent.value, digitsValue_eq htail.all_digits]
  rw [Numeral.value, digitsValue_eq hdigits.all_digits, hexponent, Lane.ofDecimal_eq]
  exact_mod_cast Binary.isNearest_scaled (Nat.ofDigitChars 10 (whole ++ places) 0) 10 (by decide)
    (exponent.value - places.length)

end FourLane
