import FourLane.Proofs.Atomicity
import FourLane.Proofs.ShortestDecimal
import FourLane.Proofs.SourceText

/-!
# Printed values are read back

The text of a lane is read as this lane, and the text of a NaN as a NaN. It is one atom, so it is
also read as a form and evaluated as an expression, which gives the vector of that lane. No lane
text has a comma, so the text of a vector determines those of its lanes.
-/
namespace FourLane

open FloatFormat

theorem readNumber_minus {cs : List Char} (h : splitSign cs = (false, cs)) :
    readNumber ('-' :: cs) = (readNumber cs).neg := by
  rw [readNumber, readNumber, h]
  rfl

theorem Binary.isZero_iff {f : FloatFormat} (x : Binary f) : x.isZero ↔ x = .zero x.negative := by
  obtain ⟨negative, magnitude⟩ := x
  simp [isZero, zero, Fin.ext_iff]

theorem Binary.isZero_of_isNaN {f : FloatFormat} {x : Binary f} (h : x.isNaN) :
    x.isZero = false := by
  have hlt : f.infinity < x.magnitude.val := by simpa [isNaN] using h
  have hne : x.magnitude.val ≠ 0 := by omega
  simpa [isZero] using hne

theorem Binary.isInfinite_iff {f : FloatFormat} (x : Binary f) :
    x.isInfinite ↔ x = .infinite x.negative := by
  obtain ⟨negative, magnitude⟩ := x
  simp [isInfinite, infinite, Fin.ext_iff]

namespace Lane

/-- The same bits, or both not a number: the text of a NaN shows nothing of its bits. -/
def Same (x y : Lane) : Prop := x = y ∨ x.isNaN ∧ y.isNaN

theorem Same.symm {x y : Lane} : x.Same y → y.Same x := Or.imp Eq.symm And.symm

theorem Same.trans {x y z : Lane} (hxy : x.Same y) (hyz : y.Same z) : x.Same z := by
  rcases hxy with rfl | ⟨hx, hy⟩
  · exact hyz
  · rcases hyz with rfl | ⟨-, hz⟩
    · exact .inr ⟨hx, hy⟩
    · exact .inr ⟨hx, hz⟩

theorem Same.eq_of_not_isNaN {x y : Lane} (h : x.Same y) (hx : x.isNaN = false) : x = y :=
  h.resolve_right fun hnan => by simp [hx] at hnan

theorem Same.isZero_eq {x y : Lane} (h : x.Same y) : x.isZero = y.isZero := by
  rcases h with rfl | ⟨hx, hy⟩
  · rfl
  · rw [Binary.isZero_of_isNaN hx, Binary.isZero_of_isNaN hy]

/-- A text without a sign that is read as the number. Its characters come after blanks,
parentheses and commas. -/
structure Spells (text : String) (x : Lane) : Prop where
  reads : readNumber text.toList = x
  unsigned : splitSign text.toList = (false, text.toList)
  nonempty : text ≠ ""
  plain : ∀ c ∈ text.toList, '-'.toNat ≤ c.toNat

theorem spells_infinite : Spells "inf" (.infinite false) := ⟨rfl, rfl, by decide, by simp⟩

theorem spells_zero : Spells "0" (.zero false) := ⟨by decide, rfl, by decide, by simp⟩

theorem spells_decimal (d : Decimal) : Spells d.text (ofDecimal d.digits d.exponent) := by
  obtain ⟨whole, places, h⟩ := d.exists_written
  obtain ⟨c, cs, rfl⟩ := List.exists_cons_of_ne_nil h.whole_ne_nil
  refine ⟨d.readNumber_text, ?_, ?_, ?_⟩
  · rw [h.text]
    exact splitSign_of_isDigit (h.whole_digits c List.mem_cons_self) _
  · intro hempty
    have htext := h.text
    rw [hempty] at htext
    cases htext
  · intro b hb
    rw [h.text] at hb
    rcases mem_positional h.whole_digits h.places_digits hb with hdigit | rfl
    · exact Nat.le_trans (by decide) (Char.isDigit_iff_toNat.mp hdigit).1
    · decide

/-- The text of a number is that of its magnitude, with a sign if it is negative. -/
theorem exists_spells (x : Lane) (h : x.isNaN = false) :
    ∃ t, Spells t ⟨false, x.magnitude⟩ ∧ x.text = if x.negative then "-" ++ t else t := by
  have hle : x.magnitude.val ≤ single.infinity := by simpa [Binary.isNaN] using h
  by_cases hinf : x.isInfinite
  · have hx : (⟨false, x.magnitude⟩ : Lane) = .infinite false := by
      rw [x.isInfinite_iff.mp hinf]
      rfl
    exact ⟨"inf", hx ▸ spells_infinite, by simp [text, h, hinf]⟩
  · by_cases hzero : x.isZero
    · have hx : (⟨false, x.magnitude⟩ : Lane) = .zero false := by
        rw [x.isZero_iff.mp hzero]
        rfl
      exact ⟨"0", hx ▸ spells_zero, by simp [text, h, hinf, hzero]⟩
    · have hspells := spells_decimal (shortest x.magnitude.val)
      rw [ofDecimal_shortest (by simpa [Binary.isZero] using hzero) hle] at hspells
      exact ⟨_, hspells, by simp [text, h, hinf, hzero]⟩

theorem readNumber_text (x : Lane) (h : x.isNaN = false) : readNumber x.text.toList = x := by
  obtain ⟨t, hspells, htext⟩ := x.exists_spells h
  obtain ⟨negative, magnitude⟩ := x
  rw [htext]
  cases negative with
  | false => exact hspells.reads
  | true =>
    change readNumber ("-" ++ t).toList = _
    rw [String.toList_append]
    change readNumber ('-' :: t.toList) = _
    rw [readNumber_minus hspells.unsigned, hspells.reads]
    rfl

theorem text_of_isNaN {x : Lane} (h : x.isNaN) : x.text = "NaN" := if_pos h

theorem same_readNumber_text (x : Lane) : x.Same (readNumber x.text.toList) := by
  by_cases h : x.isNaN
  · refine .inr ⟨h, ?_⟩
    rw [text_of_isNaN h]
    rfl
  · exact .inl (x.readNumber_text (Bool.eq_false_iff.mpr h)).symm

theorem text_eq_iff (x y : Lane) : x.text = y.text ↔ x.Same y := by
  constructor
  · intro h
    have hx := x.same_readNumber_text
    rw [h] at hx
    exact hx.trans y.same_readNumber_text.symm
  · rintro (rfl | ⟨hx, hy⟩)
    · rfl
    · rw [text_of_isNaN hx, text_of_isNaN hy]

theorem text_plain (x : Lane) : x.text ≠ "" ∧ ∀ c ∈ x.text.toList, '-'.toNat ≤ c.toNat := by
  by_cases h : x.isNaN
  · rw [text_of_isNaN h]
    simp
  · obtain ⟨t, hspells, htext⟩ := x.exists_spells (Bool.eq_false_iff.mpr h)
    rw [htext]
    split_ifs
    · rw [String.toList_append]
      exact ⟨by simp, List.forall_mem_append.mpr ⟨by simp, hspells.plain⟩⟩
    · exact ⟨hspells.nonempty, hspells.plain⟩

theorem comma_notMem_text (x : Lane) : ',' ∉ x.text.toList := fun h =>
  absurd (x.text_plain.2 ',' h) (by decide)

theorem readForm_text (x : Lane) : (readForm x.text).result = .ok (.ofAtom x.text) := by
  obtain ⟨hne, hplain⟩ := x.text_plain
  have hatom : ∀ c ∈ x.text.toList, Token.isBlank c = false ∧ c ≠ '(' ∧ c ≠ ')' := by
    intro c hc
    have hle := hplain c hc
    refine ⟨decide_eq_false (Nat.not_le.mpr (Nat.lt_of_lt_of_le (by decide) hle)), ?_, ?_⟩
    · rintro rfl
      exact absurd hle (by decide)
    · rintro rfl
      exact absurd hle (by decide)
  refine Derives.readForm ?_
  rw [tokenize_atom hne hatom]
  exact .atom x.text

end Lane

namespace Quad

theorem append_comma_inj {cs ds cs' ds' : List Char} (h : ',' ∉ cs) (h' : ',' ∉ cs')
    (heq : cs ++ ',' :: ds = cs' ++ ',' :: ds') : cs = cs' ∧ ds = ds' := by
  rcases List.append_eq_append_iff.mp heq with ⟨between, rfl, hrest⟩ | ⟨between, rfl, hrest⟩
  · cases between with
    | nil => simpa using hrest
    | cons c between =>
      obtain ⟨rfl, -⟩ := List.cons.inj hrest
      simp at h'
  · cases between with
    | nil => simpa using hrest.symm
    | cons c between =>
      obtain ⟨rfl, -⟩ := List.cons.inj hrest
      simp at h

theorem text_toList (v : Quad) :
    v.text.toList = '<' :: (v.lane0.text.toList ++ ',' :: ' ' :: (v.lane1.text.toList ++ ',' :: ' ' ::
      (v.lane2.text.toList ++ ',' :: ' ' :: (v.lane3.text.toList ++ ['>'])))) := by
  simp only [text, String.toList_append, List.append_assoc]
  rfl

theorem lanes_eq_of_text_eq {v w : Quad} (h : v.text = w.text) (i : Fin 4) :
    (v.get i).text = (w.get i).text := by
  have hlist := congrArg String.toList h
  rw [text_toList, text_toList] at hlist
  -- The first comma of what is left ends the next lane.
  obtain ⟨h0, hlist⟩ := append_comma_inj v.lane0.comma_notMem_text w.lane0.comma_notMem_text
    (List.cons.inj hlist).2
  obtain ⟨h1, hlist⟩ := append_comma_inj v.lane1.comma_notMem_text w.lane1.comma_notMem_text
    (List.cons.inj hlist).2
  obtain ⟨h2, hlist⟩ := append_comma_inj v.lane2.comma_notMem_text w.lane2.comma_notMem_text
    (List.cons.inj hlist).2
  have h3 := List.append_cancel_right (List.cons.inj hlist).2
  match i with
  | 0 => exact String.toList_inj.mp h0
  | 1 => exact String.toList_inj.mp h1
  | 2 => exact String.toList_inj.mp h2
  | 3 => exact String.toList_inj.mp h3

theorem text_eq_of_lanes_eq {v w : Quad} (h : ∀ i, (v.get i).text = (w.get i).text) :
    v.text = w.text := by
  have h0 : v.lane0.text = w.lane0.text := h 0
  have h1 : v.lane1.text = w.lane1.text := h 1
  have h2 : v.lane2.text = w.lane2.text := h 2
  have h3 : v.lane3.text = w.lane3.text := h 3
  rw [text, text, h0, h1, h2, h3]

end Quad

/-- What an atom is worth outside all functions: a name has no value there and counts as zero. -/
def atomValue (text : String) : Lane :=
  if (readNumber text.toList).isZero then .zero false else readNumber text.toList

theorem Lane.same_atomValue {x : Lane} (h : x ≠ .zero true) : x.Same (atomValue x.text) := by
  rcases x.same_readNumber_text with heq | ⟨hx, hy⟩
  · rw [atomValue, ← heq]
    split_ifs with hzero
    · have hx := x.isZero_iff.mp hzero
      cases hsign : x.negative with
      | false => exact .inl (hsign ▸ hx)
      | true => exact absurd (hsign ▸ hx) h
    · exact .inl rfl
  · rw [atomValue, if_neg (by simp [Binary.isZero_of_isNaN hy])]
    exact .inr ⟨hx, hy⟩

def Routine.constant (number : Nat) (x : Lane) : Routine where
  number := number
  convention := .byAddress
  arity := 0
  imports := #[]
  code := #[.const x, .splat 1]
  exit := .store 2 0

theorem Routine.compile_ofAtom (registry : Registry) (number : Nat) (text : String) :
    ∃ log, compile registry number .byAddress [] (.ofAtom text) =
      (.ok (constant number (atomValue text)), log) := by
  rw [Form.ofAtom, atomValue]
  split_ifs
  · exact ⟨_, rfl⟩
  · exact ⟨_, rfl⟩

theorem Image.enter_constant (image : Image) (number : Nat) (x : Lane) :
    Image.enter (.constant number x :: image) number [] = some (.splat x) := by
  have hnumber : number = (Routine.constant number x).number := rfl
  rw [enter, if_pos hnumber]
  rfl

theorem Form.definition?_ofAtom (text : String) : (ofAtom text).definition? = none := by
  rw [ofAtom]
  split_ifs <;> rfl

theorem Session.evaluateFirst_atom (s : Session) {text : String}
    (h : (readForm text).result = .ok (.ofAtom text)) :
    (s.evaluateFirst text).lines = [(Quad.splat (atomValue text)).text] := by
  obtain ⟨hresult, hsession⟩ := s.submit_of_readForm text _ h
  obtain ⟨log, hcompile⟩ := Routine.compile_ofAtom s.registry s.next text
  have henter := Image.enter_constant s.image s.next (atomValue text)
  have hcall : (s.install "externalexpr" (.constant s.next (atomValue text))).call
      ⟨s.next, 0⟩ [] = .ok (.splat (atomValue text)) := by
    simp [call, enter, install, henter, callLimit]
  -- The session is arbitrary: the new routine stands in front and calls nothing behind it.
  simp only [evaluateFirst, hresult, hsession, submitForm, Form.definition?_ofAtom, exportExpression,
    s.compile_of_lowered _ _ _ _ hcompile]
  change (report _ text (.ok (some ⟨s.next, 0⟩))).1.toList = _
  rw [report, hcall]
  rfl

/-- Every printed lane is read as the same lane, as a number and, unless it is a zero, as a form.
Vectors have the same text just when their lanes are the same. Evaluating the text of a lane prints
it once for each lane; the one exception is the negative zero, whose text is a name. -/
theorem printed_reads_back :
    (∀ x : Lane, x.Same (readNumber x.text.toList)) ∧
      (∀ x : Lane, x.isZero = false →
        ∃ y, (readForm x.text).result = .ok (.number y) ∧ x.Same y) ∧
      (∀ v w : Quad, v.text = w.text ↔ ∀ i, (v.get i).Same (w.get i)) ∧
      ∀ (s : Session) (x : Lane), x ≠ .zero true →
        (s.evaluateFirst x.text).lines = [s!"<{x.text}, {x.text}, {x.text}, {x.text}>"] := by
  refine ⟨Lane.same_readNumber_text, ?_, ?_, ?_⟩
  · intro x hzero
    have hsame := x.same_readNumber_text
    refine ⟨_, ?_, hsame⟩
    rw [x.readForm_text, Form.ofAtom, if_neg (by simp [← hsame.isZero_eq, hzero])]
  · intro v w
    constructor
    · exact fun h i => (Lane.text_eq_iff _ _).mp (Quad.lanes_eq_of_text_eq h i)
    · exact fun h => Quad.text_eq_of_lanes_eq fun i => (Lane.text_eq_iff _ _).mpr (h i)
  · intro s x hx
    have htext := (Lane.text_eq_iff _ _).mpr (Lane.same_atomValue hx)
    rw [s.evaluateFirst_atom x.readForm_text, Quad.text, Quad.splat, ← htext]

def leastNegative : Lane := ⟨true, ⟨1, by decide⟩⟩

theorem printed_reads_back_leastNegative :
    leastNegative.text = "-0.000000000000000000000000000000000000000000001" ∧
      readNumber leastNegative.text.toList = leastNegative ∧
      (readForm leastNegative.text).result = .ok (.number leastNegative) ∧
      Quad.text ⟨leastNegative, .zero false, .nan true, .infinite true⟩ =
        Quad.text ⟨leastNegative, .zero false, .nan false, .infinite true⟩ ∧
      ∀ s : Session,
        (s.evaluateFirst leastNegative.text).lines = [(Quad.splat leastNegative).text] := by
  obtain ⟨hnumber, hform, hvector, hline⟩ := printed_reads_back
  obtain ⟨y, hread, hsame⟩ := hform leastNegative (by decide)
  refine ⟨by decide +kernel, ?_, ?_, ?_, fun s => hline s leastNegative (by decide)⟩
  · exact ((hnumber leastNegative).eq_of_not_isNaN (by decide)).symm
  · rw [hread, ← hsame.eq_of_not_isNaN (by decide)]
  · refine (hvector _ _).mpr fun i => ?_
    match i with
    | 0 => exact .inl rfl
    | 1 => exact .inl rfl
    | 2 => exact .inr ⟨by decide, by decide⟩
    | 3 => exact .inl rfl

end FourLane
