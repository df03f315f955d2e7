import FourLane.Proofs.DecimalReading
import Mathlib

/-!
# The grammar of numerals

A numeral is spelled by a word, by hexadecimal or by decimal digits, after an optional sign. The
scanners of digits, signs and exponents each take the longest part of their kind at the start of a
text: a point, a mark or a sign that begins nothing is left alone.
-/
namespace FourLane

/-- The digit that a character stands for in base sixteen. -/
def hexDigit? (c : Char) : Option Nat :=
  if '0' ≤ c ∧ c ≤ '9' then some (c.toNat - '0'.toNat)
  else if 'a' ≤ c ∧ c ≤ 'f' then some (c.toNat - 'a'.toNat + 10)
  else if 'A' ≤ c ∧ c ≤ 'F' then some (c.toNat - 'A'.toNat + 10)
  else none

inductive SignText : Bool → List Char → Prop
  | none : SignText false []
  | plus : SignText false ['+']
  | minus : SignText true ['-']

/-- Digits before and behind a point, or without a point. There is at least one digit. -/
inductive DigitsText (isDigit : Char → Bool) : List Char → List Char → List Char → Prop
  | whole {whole : List Char} (hwhole : ∀ c ∈ whole, isDigit c) (hne : whole ≠ []) :
    DigitsText isDigit whole [] whole
  | point {whole places : List Char} (hwhole : ∀ c ∈ whole, isDigit c)
    (hplaces : ∀ c ∈ places, isDigit c) (hne : whole ++ places ≠ []) :
    DigitsText isDigit whole places (whole ++ '.' :: places)

/-- An exponent behind its mark, or none. -/
inductive ExponentText (mark : Char) : Exponent → List Char → Prop
  | absent : ExponentText mark {} []
  | present {c : Char} {negative : Bool} {sign digits : List Char}
    (hmark : c = mark ∨ c = mark.toUpper) (hsign : SignText negative sign)
    (hdigits : ∀ d ∈ digits, d.isDigit) (hne : digits ≠ []) :
    ExponentText mark ⟨negative, digits⟩ (c :: (sign ++ digits))

def ScaledText (isDigit : Char → Bool) (mark : Char) (whole places : List Char)
    (exponent : Exponent) (text : List Char) : Prop :=
  ∃ digits tail, text = digits ++ tail ∧ DigitsText isDigit whole places digits ∧
    ExponentText mark exponent tail

inductive NumeralText : Numeral → List Char → Prop
  | inf {text : List Char} (h : text.map Char.toLower = ['i', 'n', 'f']) :
    NumeralText .infinity text
  | infinity {text : List Char}
    (h : text.map Char.toLower = ['i', 'n', 'f', 'i', 'n', 'i', 't', 'y']) :
    NumeralText .infinity text
  | nan {text : List Char} (h : text.map Char.toLower = ['n', 'a', 'n']) : NumeralText .nan text
  | hexadecimal {x : Char} {whole places text : List Char} {exponent : Exponent}
    (hx : x = 'x' ∨ x = 'X')
    (h : ScaledText (fun c => (hexDigit? c).isSome) 'p' whole places exponent text) :
    NumeralText (.hexadecimal whole places exponent) ('0' :: x :: text)
  | decimal {whole places text : List Char} {exponent : Exponent}
    (h : ScaledText Char.isDigit 'e' whole places exponent text) :
    NumeralText (.decimal whole places exponent) text

def SignedText (negative : Bool) (n : Numeral) (text : List Char) : Prop :=
  ∃ sign body, text = sign ++ body ∧ SignText negative sign ∧ NumeralText n body

def Exponent.value (e : Exponent) : Int :=
  if e.negative then -(Nat.ofDigitChars 10 e.digits 0 : Int) else Nat.ofDigitChars 10 e.digits 0

/-- No longer beginning of the text has the property. -/
structure Longest (P : List Char → Prop) (text part : List Char) : Prop where
  starts : part <+: text
  holds : P part
  longest : ∀ other, other <+: text → P other → other.length ≤ part.length

theorem Longest.unique {P : List Char → Prop} {text part part' : List Char}
    (h : Longest P text part) (h' : Longest P text part') : part = part' := by
  have hlength := Nat.le_antisymm (h'.longest part h.starts h.holds)
    (h.longest part' h'.starts h'.holds)
  exact (List.prefix_of_prefix_length_le h.starts h'.starts hlength.le).eq_of_length hlength

/-- What is longest in two steps is longest at once if the second part cannot begin earlier. -/
theorem Longest.append {P Q : List Char → Prop} {text first second rest : List Char}
    (hfirst : Longest P text first) (htext : text = first ++ rest) (hsecond : Longest Q rest second)
    (hsplit : ∀ part, Q part → ∀ c ∈ part.head?, c ∉ first) :
    Longest (fun t => ∃ a b, t = a ++ b ∧ P a ∧ Q b) text (first ++ second) := by
  refine ⟨?_, ⟨first, second, rfl, hfirst.holds, hsecond.holds⟩, ?_⟩
  · rw [htext]
    exact List.prefix_append_right_inj first |>.mpr hsecond.starts
  · rintro other hother ⟨a, b, rfl, ha, hb⟩
    have hprefix : a <+: text := (List.prefix_append a b).trans hother
    obtain ⟨more, rfl⟩ : a <+: first :=
      List.prefix_of_prefix_length_le hprefix hfirst.starts (hfirst.longest a hprefix ha)
    rw [htext, List.append_assoc, List.prefix_append_right_inj] at hother
    rw [List.length_append, List.length_append, List.length_append]
    cases b with
    | nil => simp only [List.length_nil]; omega
    | cons c cs =>
      cases more with
      | nil =>
        have hle := hsecond.longest _ hother hb
        simp only [List.length_nil]
        omega
      | cons d ds =>
        -- The second part would begin with a character of the first.
        obtain rfl : c = d := (List.cons_prefix_cons.mp hother).1
        exact absurd (by simp) (hsplit _ hb c rfl)

/-! ### Characters -/

theorem toNat_toLower (c : Char) :
    c.toLower.toNat = if 65 ≤ c.toNat ∧ c.toNat ≤ 90 then c.toNat + 32 else c.toNat := by
  have hupper : c.isUpper = true ↔ 65 ≤ c.toNat ∧ c.toNat ≤ 90 := decide_eq_true_iff
  by_cases h : c.isUpper = true
  · have hle := (hupper.mp h).2
    rw [if_pos (hupper.mp h), Char.toLower_eq_of_isUpper h, Char.toNat_ofNat, if_pos]
    exact .inl (by omega)
  · rw [if_neg (mt hupper.mpr h), Char.toLower_eq_of_not_isUpper h]

theorem toLower_eq_iff (c lower upper : Char)
    (h : 97 ≤ lower.toNat ∧ lower.toNat ≤ 122 ∧ upper.toNat + 32 = lower.toNat) :
    c.toLower = lower ↔ c = lower ∨ c = upper := by
  rw [← Char.toNat_inj, ← Char.toNat_inj, ← Char.toNat_inj, toNat_toLower]
  split_ifs <;> omega

theorem isHexDigit_eq : isHexDigit = fun c => (hexDigit? c).isSome := by
  funext c
  have hle (a b : Char) : a ≤ b ↔ a.toNat ≤ b.toNat := Iff.rfl
  have hdigit : c.isDigit = true ↔ 48 ≤ c.toNat ∧ c.toNat ≤ 57 := Char.isDigit_iff_toNat
  rw [Bool.eq_iff_iff]
  unfold isHexDigit hexDigit?
  simp only [Bool.or_eq_true, hdigit, Bool.and_eq_true, decide_eq_true_eq, hle, toNat_toLower,
    Char.reduceToNat]
  split_ifs <;> simp <;> omega

theorem toLower_ne_of_digit {c w : Char} (h : c.isDigit = true ∨ c = '.') (hw : 65 ≤ w.toNat) :
    c.toLower ≠ w := by
  have hlt : c.toNat < 65 := by
    rcases h with h | rfl
    · have hle : c.toNat ≤ 57 := (Char.isDigit_iff_toNat.mp h).2
      omega
    · decide
  rintro rfl
  rw [toNat_toLower] at hw
  split_ifs at hw <;> omega

variable {isDigit : Char → Bool} {mark : Char} {whole places : List Char}

/-! ### Digits -/

/-- In front of a text that starts with neither a digit nor a point, digits are cut off whole. -/
theorem DigitsText.splitDigits_append {digits more : List Char} (hpoint : isDigit '.' = false)
    (h : DigitsText isDigit whole places digits)
    (hmore : ∀ c ∈ more.head?, isDigit c = false ∧ c ≠ '.') :
    Numeral.splitDigits isDigit (digits ++ more) = some (whole, places, more) := by
  have htake : more.takeWhile isDigit = [] := by
    cases more with
    | nil => rfl
    | cons c cs => exact List.takeWhile_cons_of_neg (by simp [hmore c rfl])
  have hdrop : more.dropWhile isDigit = more := by
    cases more with
    | nil => rfl
    | cons c cs => exact List.dropWhile_cons_of_neg (by simp [hmore c rfl])
  cases h with
  | whole hwhole hne =>
    rw [Numeral.splitDigits, List.takeWhile_append_of_pos hwhole,
      List.dropWhile_append_of_pos hwhole, htake, hdrop]
    split
    · exact absurd rfl (hmore '.' rfl).2
    · simp [hne]
  | point hwhole hplaces hne =>
    rw [Numeral.splitDigits, List.append_assoc, List.takeWhile_append_of_pos hwhole,
      List.dropWhile_append_of_pos hwhole, List.cons_append,
      List.takeWhile_cons_of_neg (by simp [hpoint]), List.dropWhile_cons_of_neg (by simp [hpoint])]
    simp only [List.takeWhile_append_of_pos hplaces, List.dropWhile_append_of_pos hplaces, htake,
      hdrop, List.append_nil]
    rw [if_neg (by simpa using hne)]

/-- Whatever follows, digits are cut off, and nothing but what follows is left. -/
theorem DigitsText.exists_splitDigits {digits : List Char} (hpoint : isDigit '.' = false)
    (h : DigitsText isDigit whole places digits) (more : List Char) :
    ∃ whole' places' rest,
      Numeral.splitDigits isDigit (digits ++ more) = some (whole', places', rest) ∧
        rest <:+ more := by
  cases h with
  | whole hwhole hne =>
    rw [Numeral.splitDigits, List.takeWhile_append_of_pos hwhole,
      List.dropWhile_append_of_pos hwhole]
    split
    · rename_i rest hrest
      have hsuffix : '.' :: rest <:+ more := hrest ▸ List.dropWhile_suffix isDigit
      exact ⟨_, _, _, if_neg (by simp [hne]),
        (List.dropWhile_suffix _).trans ((List.suffix_cons _ _).trans hsuffix)⟩
    · exact ⟨_, _, _, if_neg (by simp [hne]), List.dropWhile_suffix _⟩
  | point hwhole hplaces hne =>
    rw [Numeral.splitDigits, List.append_assoc, List.takeWhile_append_of_pos hwhole,
      List.dropWhile_append_of_pos hwhole, List.cons_append,
      List.takeWhile_cons_of_neg (by simp [hpoint]), List.dropWhile_cons_of_neg (by simp [hpoint])]
    simp only [List.takeWhile_append_of_pos hplaces, List.dropWhile_append_of_pos hplaces]
    refine ⟨_, _, _, if_neg ?_, List.dropWhile_suffix _⟩
    rw [List.append_nil, Bool.and_eq_true, List.isEmpty_iff, List.isEmpty_iff,
      List.append_eq_nil_iff]
    rintro ⟨rfl, rfl, -⟩
    exact hne rfl

theorem exists_digitsText {text rest : List Char}
    (h : Numeral.splitDigits isDigit text = some (whole, places, rest)) :
    ∃ digits, text = digits ++ rest ∧ DigitsText isDigit whole places digits := by
  have hall (cs : List Char) : ∀ c ∈ cs.takeWhile isDigit, isDigit c = true :=
    fun c hc => List.mem_takeWhile_imp hc
  have htext : text = text.takeWhile isDigit ++ text.dropWhile isDigit :=
    List.takeWhile_append_dropWhile.symm
  rw [Numeral.splitDigits] at h
  split at h
  · rename_i more hmore
    dsimp only at h
    split_ifs at h with hempty
    cases h
    refine ⟨_, ?_, .point (hall text) (hall more) (by simpa using hempty)⟩
    rw [List.append_assoc, List.cons_append, List.takeWhile_append_dropWhile, ← hmore]
    exact htext
  · split_ifs at h with hempty
    cases h
    exact ⟨_, htext, .whole (hall text) (by simpa using hempty)⟩

theorem longest_splitDigits {text rest : List Char} (hpoint : isDigit '.' = false)
    (h : Numeral.splitDigits isDigit text = some (whole, places, rest)) :
    ∃ digits, text = digits ++ rest ∧ DigitsText isDigit whole places digits ∧
      Longest (fun t => ∃ whole places, DigitsText isDigit whole places t) text digits := by
  obtain ⟨digits, htext, hdigits⟩ := exists_digitsText h
  refine ⟨digits, htext, hdigits, ⟨rest, htext.symm⟩, ⟨whole, places, hdigits⟩, ?_⟩
  rintro other ⟨more, hother⟩ ⟨whole', places', hdigits'⟩
  obtain ⟨_, _, rest', hsplit, hrest⟩ := hdigits'.exists_splitDigits hpoint more
  rw [hother, h] at hsplit
  cases hsplit
  have hlength := congrArg List.length (hother.trans htext)
  rw [List.length_append, List.length_append] at hlength
  have hle := hrest.length_le
  omega

theorem DigitsText.ne_nil {digits : List Char} (h : DigitsText isDigit whole places digits) :
    digits ≠ [] := by
  cases h with
  | whole hwhole hne => exact hne
  | point hwhole hplaces hne => simp

theorem DigitsText.mem {digits : List Char} (h : DigitsText isDigit whole places digits) :
    ∀ c ∈ digits, isDigit c ∨ c = '.' := by
  cases h with
  | whole hwhole hne => exact fun c hc => .inl (hwhole c hc)
  | point hwhole hplaces hne =>
    intro c hc
    rw [List.mem_append, List.mem_cons] at hc
    rcases hc with hc | rfl | hc
    · exact .inl (hwhole c hc)
    · exact .inr rfl
    · exact .inl (hplaces c hc)

theorem DigitsText.all_digits {digits : List Char} (h : DigitsText isDigit whole places digits) :
    ∀ c ∈ whole ++ places, isDigit c := by
  cases h with
  | whole hwhole hne => simpa using hwhole
  | point hwhole hplaces hne => exact fun c hc => (List.mem_append.mp hc).elim (hwhole c) (hplaces c)

/-! ### Signs -/

theorem SignText.splitSign_append {negative : Bool} {sign more : List Char}
    (h : SignText negative sign) (hmore : ∀ c ∈ more.head?, c ≠ '-' ∧ c ≠ '+') :
    splitSign (sign ++ more) = (negative, more) := by
  cases h with
  | plus => rfl
  | minus => rfl
  | none =>
    rw [List.nil_append, splitSign.eq_3]
    · exact fun cs hcs => (hmore '-' (by rw [hcs]; rfl)).1 rfl
    · exact fun cs hcs => (hmore '+' (by rw [hcs]; rfl)).2 rfl

theorem SignText.length_le {negative : Bool} {sign : List Char} (h : SignText negative sign) :
    sign.length ≤ 1 := by
  cases h <;> decide

theorem SignText.mem {negative : Bool} {sign : List Char} (h : SignText negative sign) :
    ∀ c ∈ sign, c = '-' ∨ c = '+' := by
  cases h <;> simp

theorem longest_splitSign (text : List Char) :
    ∃ sign, text = sign ++ (splitSign text).2 ∧ SignText (splitSign text).1 sign ∧
      Longest (fun t => ∃ negative, SignText negative t) text sign := by
  unfold splitSign
  split
  · exact ⟨['-'], rfl, .minus, ⟨_, rfl⟩, ⟨_, .minus⟩, fun _ _ ⟨_, h⟩ => h.length_le⟩
  · exact ⟨['+'], rfl, .plus, ⟨_, rfl⟩, ⟨_, .plus⟩, fun _ _ ⟨_, h⟩ => h.length_le⟩
  · rename_i hminus hplus
    refine ⟨[], rfl, .none, List.nil_prefix, ⟨_, .none⟩, ?_⟩
    rintro other ⟨more, hother⟩ ⟨negative, hsign⟩
    cases hsign with
    | none => exact le_rfl
    | plus => exact absurd hother.symm (hplus more)
    | minus => exact absurd hother.symm (hminus more)

/-! ### Exponents -/

theorem exponentAt_cons (c : Char) (cs : List Char) :
    Numeral.exponentAt mark (c :: cs) =
      if c.toLower = mark ∧ (splitSign cs).2.takeWhile Char.isDigit ≠ [] then
        ⟨(splitSign cs).1, (splitSign cs).2.takeWhile Char.isDigit⟩
      else {} := by
  simp [Numeral.exponentAt]

theorem sign_ne_of_isDigit {c : Char} (h : c.isDigit = true) : c ≠ '-' ∧ c ≠ '+' := by
  constructor <;> rintro rfl <;> exact absurd h (by decide)

/-- What distinguishes the digits of a numeral from a point and from the mark of an exponent. -/
structure Marks (isDigit : Char → Bool) (mark : Char) : Prop where
  point : isDigit '.' = false
  letter (c : Char) : c.toLower = mark ↔ c = mark ∨ c = mark.toUpper
  digit (c : Char) : c.toLower = mark → isDigit c = false ∧ c ≠ '.'

theorem ExponentText.exponentAt (hm : Marks isDigit mark) {exponent : Exponent} {tail : List Char}
    (h : ExponentText mark exponent tail) : Numeral.exponentAt mark tail = exponent := by
  cases h with
  | absent => rfl
  | @present c negative sign digits hmark hsign hdigits hne =>
    have hsplit : splitSign (sign ++ digits) = (negative, digits) :=
      hsign.splitSign_append fun d hd => sign_ne_of_isDigit (hdigits d (List.mem_of_mem_head? hd))
    have htake : digits.takeWhile Char.isDigit = digits := List.takeWhile_eq_self_iff.mpr hdigits
    rw [exponentAt_cons, hsplit, htake, if_pos ⟨(hm.letter c).mpr hmark, hne⟩]

/-- Digits behind a sign are among those that the scanner takes behind a sign. -/
theorem SignText.digits_prefix {negative : Bool} {sign digits text : List Char}
    (hsign : SignText negative sign) (hdigits : ∀ d ∈ digits, d.isDigit) (hne : digits ≠ [])
    (h : sign ++ digits <+: text) : digits <+: (splitSign text).2.takeWhile Char.isDigit := by
  obtain ⟨more, rfl⟩ := h
  rw [List.append_assoc, hsign.splitSign_append, List.takeWhile_append_of_pos hdigits]
  · exact List.prefix_append _ _
  · obtain ⟨d, ds, rfl⟩ := List.exists_cons_of_ne_nil hne
    rintro _ ⟨⟩
    exact sign_ne_of_isDigit (hdigits d List.mem_cons_self)

/-- The scanner takes an exponent where there is one, with all its digits. -/
theorem longest_exponentAt (hm : Marks isDigit mark) (text : List Char) :
    ∃ tail, ExponentText mark (Numeral.exponentAt mark text) tail ∧
      Longest (fun t => ∃ exponent, ExponentText mark exponent t) text tail := by
  cases text with
  | nil => exact ⟨[], .absent, List.nil_prefix, ⟨_, .absent⟩, fun _ h _ => h.length_le⟩
  | cons c cs =>
    rw [exponentAt_cons]
    by_cases h : c.toLower = mark ∧ (splitSign cs).2.takeWhile Char.isDigit ≠ []
    · obtain ⟨sign, hcs, hsign, hlongest⟩ := longest_splitSign cs
      have htail := ExponentText.present ((hm.letter c).mp h.1) hsign
        (fun d hd => List.mem_takeWhile_imp hd) h.2
      have hstarts := (List.prefix_append_right_inj sign).mpr
        (List.takeWhile_prefix (l := (splitSign cs).2) Char.isDigit)
      rw [← hcs] at hstarts
      rw [if_pos h]
      refine ⟨_, htail, List.cons_prefix_cons.mpr ⟨rfl, hstarts⟩, ⟨_, htail⟩, ?_⟩
      rintro other hother ⟨exponent, hexponent⟩
      cases hexponent with
      | absent => exact Nat.zero_le _
      | @present c' negative sign' digits hmark hsign' hdigits hne =>
        have hbehind := (List.cons_prefix_cons.mp hother).2
        have hsigns := hlongest.longest sign' ((List.prefix_append _ _).trans hbehind) ⟨_, hsign'⟩
        have htaken := (hsign'.digits_prefix hdigits hne hbehind).length_le
        simp only [List.length_cons, List.length_append]
        omega
    · rw [if_neg h]
      refine ⟨[], .absent, List.nil_prefix, ⟨_, .absent⟩, ?_⟩
      rintro other hother ⟨exponent, hexponent⟩
      cases hexponent with
      | absent => exact le_rfl
      | @present c' negative sign' digits hmark hsign' hdigits hne =>
        obtain ⟨rfl, hbehind⟩ := List.cons_prefix_cons.mp hother
        have htaken := hsign'.digits_prefix hdigits hne hbehind
        refine absurd ⟨(hm.letter c').mpr hmark, fun hnil => hne ?_⟩ h
        rw [hnil] at htaken
        exact List.prefix_nil.mp htaken

theorem ExponentText.head {exponent : Exponent} {tail : List Char} (hm : Marks isDigit mark)
    (h : ExponentText mark exponent tail) : ∀ c ∈ tail.head?, isDigit c = false ∧ c ≠ '.' := by
  cases h with
  | absent => simp
  | present hmark hsign hdigits hne =>
    rintro _ ⟨⟩
    exact hm.digit _ ((hm.letter _).mpr hmark)

theorem ExponentText.all_digits {exponent : Exponent} {tail : List Char}
    (h : ExponentText mark exponent tail) : ∀ c ∈ exponent.digits, c.isDigit := by
  cases h with
  | absent => simp
  | present hmark hsign hdigits hne => exact hdigits

/-! ### Digits with an exponent -/

theorem ScaledText.exists_splitDigits (hm : Marks isDigit mark) {exponent : Exponent}
    {text : List Char} (h : ScaledText isDigit mark whole places exponent text) :
    ∃ rest, Numeral.splitDigits isDigit text = some (whole, places, rest) ∧
      Numeral.exponentAt mark rest = exponent := by
  obtain ⟨digits, tail, rfl, hdigits, htail⟩ := h
  exact ⟨tail, hdigits.splitDigits_append hm.point (htail.head hm), htail.exponentAt hm⟩

theorem longest_scaled (hm : Marks isDigit mark) {text rest : List Char}
    (h : Numeral.splitDigits isDigit text = some (whole, places, rest)) :
    ∃ part, ScaledText isDigit mark whole places (Numeral.exponentAt mark rest) part ∧
      Longest (fun t => ∃ whole places exponent, ScaledText isDigit mark whole places exponent t)
        text part := by
  obtain ⟨digits, htext, hdigits, hlongest⟩ := longest_splitDigits hm.point h
  obtain ⟨tail, htail, hlongest'⟩ := longest_exponentAt hm rest
  have happend := hlongest.append htext hlongest' fun part ⟨exponent, hpart⟩ c hc hmem => by
    obtain ⟨hdigit, hpoint⟩ := hpart.head hm c hc
    rcases hdigits.mem c hmem with h | h
    · rw [hdigit] at h
      cases h
    · exact hpoint h
  refine ⟨digits ++ tail, ⟨digits, tail, rfl, hdigits, htail⟩, happend.starts,
    ⟨whole, places, _, digits, tail, rfl, hdigits, htail⟩, ?_⟩
  rintro other hother ⟨whole', places', exponent', a, b, rfl, ha, hb⟩
  exact happend.longest _ hother ⟨a, b, rfl, ⟨_, _, ha⟩, ⟨_, hb⟩⟩

theorem not_scaledText (hm : Marks isDigit mark) {text part : List Char} {exponent : Exponent}
    (h : Numeral.splitDigits isDigit text = none) (hpart : part <+: text) :
    ¬ ScaledText isDigit mark whole places exponent part := by
  rintro ⟨digits, tail, rfl, hdigits, htail⟩
  obtain ⟨more, rfl⟩ := hpart
  obtain ⟨whole', places', rest, hsplit, -⟩ := hdigits.exists_splitDigits hm.point (tail ++ more)
  rw [← List.append_assoc, h] at hsplit
  cases hsplit

theorem marks_decimal : Marks Char.isDigit 'e' where
  point := rfl
  letter c := toLower_eq_iff c 'e' 'E' (by decide)
  digit c h := by
    rcases (toLower_eq_iff c 'e' 'E' (by decide)).mp h with rfl | rfl
    · exact ⟨rfl, by decide⟩
    · exact ⟨rfl, by decide⟩

theorem marks_hexadecimal : Marks (fun c => (hexDigit? c).isSome) 'p' where
  point := rfl
  letter c := toLower_eq_iff c 'p' 'P' (by decide)
  digit c h := by
    rcases (toLower_eq_iff c 'p' 'P' (by decide)).mp h with rfl | rfl
    · exact ⟨rfl, by decide⟩
    · exact ⟨rfl, by decide⟩

/-- The mark of a hexadecimal numeral stands nowhere in a decimal one. -/
theorem ScaledText.toLower_ne {exponent : Exponent} {text : List Char}
    (h : ScaledText Char.isDigit 'e' whole places exponent text) : ∀ c ∈ text, c.toLower ≠ 'x' := by
  obtain ⟨digits, tail, rfl, hdigits, htail⟩ := h
  intro c hc
  rcases List.mem_append.mp hc with hc | hc
  · exact toLower_ne_of_digit (hdigits.mem c hc) (by decide)
  · cases htail with
    | absent => cases hc
    | present hmark hsign hdigits' hne =>
      rw [List.mem_cons, List.mem_append] at hc
      rcases hc with rfl | hc | hc
      · rcases hmark with rfl | rfl <;> decide
      · rcases hsign.mem c hc with rfl | rfl <;> decide
      · exact toLower_ne_of_digit (.inl (hdigits' c hc)) (by decide)

end FourLane
