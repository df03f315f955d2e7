import FourLane.Proofs.Atomicity
import FourLane.Proofs.Permanence

/-!
# Evaluating forms together or one by one

A source of several forms is read by one reader and all its forms are compiled before any of them
is called. The lines that it gives are still those of its forms evaluated one by one: the forms
are read as if each stood alone, and a handle gives at the end what it gave right after its
compilation, whatever has been defined since. Every form that compiles and is no definition gives
one line, since compiled code comes to its end.
-/
namespace FourLane

namespace Session

/-- Texts evaluated one by one, up to the first that does not compile: their lines and the session
after them. -/
def evaluateEach (s : Session) : List String → List String × Session
  | [] => ([], s)
  | text :: texts =>
    let first := s.evaluateFirst text
    match (s.submit text).result with
    | .error _ => (first.lines, first.session)
    | .ok _ =>
      let rest := first.session.evaluateEach texts
      (first.lines ++ rest.1, rest.2)

def accepted (s : Session) : List Form → List Form
  | [] => []
  | form :: forms =>
    match (s.submitForm form).result with
    | .error _ => []
    | .ok _ => form :: (s.submitForm form).session.accepted forms

variable {s s' : Session}

/-! ### The line of a form -/

/-- A line does not depend on when the handle is called, nor on the source that is logged. -/
theorem Grows.line_report (h : s.Grows s') (hs' : s'.Reachable) (source source' : String)
    (handle : Option Handle) (hserves : ∀ h ∈ handle, s.Serves h) :
    (s'.report source (.ok handle)).1 = (s.report source' (.ok handle)).1 := by
  cases handle with
  | none => rfl
  | some handle =>
    have hnumbered := hs'.wellFormed.1.image.numbered
    have hcall := h.call hnumbered handle (hserves handle rfl) []
    rw [report, report, hcall]
    cases s.call handle [] <;> rfl

theorem Reachable.call_compiled (hs : s.Reachable) (name : String) (params : List String)
    (body : Form) (handle : Handle)
    (h : (s.compile .byAddress name params body).result = .ok handle) (args : List Quad)
    (hargs : args.length = params.length) (hlimit : args.length ≤ callLimit) :
    ∃ v, (s.compile .byAddress name params body).session.call handle args = .ok v := by
  obtain ⟨-, lexicon, hlexicon⟩ := hs.wellFormed
  rcases s.compile_cases .byAddress name params body with ⟨e, log, -, heq⟩ | ⟨r, log, hr, heq⟩
  · rw [heq] at h
    cases h
  · rw [heq] at h ⊢
    cases h
    obtain ⟨v, -, hrun⟩ := hlexicon.computes_compiled hr args hargs
    have henter : (s.install name r).enter ⟨r.number, params.length⟩ args = some v := by
      rw [enter, if_pos hargs]
      exact hrun
    refine ⟨v, ?_⟩
    rw [call, if_neg (not_not_intro hargs), if_neg (Nat.not_lt.mpr hlimit), henter]

/-- A form that compiles gives a line just when it is no definition. -/
theorem Reachable.line_submitForm (hs : s.Reachable) (form : Form) (handle : Option Handle)
    (h : (s.submitForm form).result = .ok handle) (source : String) :
    ((s.submitForm form).session.report source (.ok handle)).1.isSome =
      form.definition?.isNone := by
  rcases s.submitForm_cases form with ⟨d, hd, hresult, -⟩ | ⟨hd, hresult, hsession⟩
  · rw [hresult, exceptMap_eq_ok_iff] at h
    obtain ⟨u, -, rfl⟩ := h
    rw [hd]
    rfl
  · rw [hresult, exceptMap_eq_ok_iff] at h
    obtain ⟨compiled, hcompiled, rfl⟩ := h
    obtain ⟨v, hv⟩ := hs.call_compiled _ [] form compiled hcompiled [] rfl (Nat.zero_le _)
    rw [hsession, hd, exportExpression, report, hv]
    rfl

/-! ### A batch against its forms one by one -/

theorem evaluateEach_cons (text : String) (texts : List String) (form : Form)
    (h : (readForm text).result = .ok form) :
    s.evaluateEach (text :: texts) =
      match (s.submitForm form).result with
      | .error _ => ([], (s.submitForm form).session)
      | .ok handle =>
        let rest := (s.submitForm form).session.evaluateEach texts
        (((s.submitForm form).session.report text (.ok handle)).1.toList ++ rest.1, rest.2) := by
  obtain ⟨hresult, hsession⟩ := s.submit_of_readForm text form h
  rw [evaluateEach]
  simp only [evaluateFirst, hresult, hsession]
  cases (s.submitForm form).result <;> rfl

/-- The lines are taken in any later session, as evaluation takes those of all forms at the end. -/
theorem Reachable.submitReadings_eq_evaluateEach (hs : s.Reachable) (source : String)
    {texts : List String} {forms : List Form}
    (htexts : List.Forall₂ (fun text form => (readForm text).result = .ok form) texts forms)
    (rs bad : List Reading) (hrs : rs.map Reading.result = forms.map .ok)
    (hbad : ∀ r ∈ bad, ∃ e, r.result = .error e)
    (hgrows : (s.submitReadings (rs ++ bad)).session.Grows s') :
    ((s.submitReadings (rs ++ bad)).results.filterMap (fun result => (s'.report source result).1),
        (s.submitReadings (rs ++ bad)).session) = s.evaluateEach texts := by
  induction htexts generalizing s rs with
  | nil =>
    obtain rfl := List.map_eq_nil_iff.mp hrs
    cases bad with
    | nil => rfl
    | cons r bad =>
      obtain ⟨e, he⟩ := hbad r List.mem_cons_self
      rw [List.nil_append, submitReadings, he]
      rfl
  | @cons text form texts forms htext htexts ih =>
    cases rs with
    | nil => cases hrs
    | cons r rs =>
      obtain ⟨hr, hrs⟩ := List.cons.inj hrs
      rw [evaluateEach_cons text texts form htext]
      rw [List.cons_append, submitReadings, hr] at hgrows ⊢
      cases ho : (s.submitForm form).result with
      | error e =>
        simp only [ho]
        rfl
      | ok handle =>
        simp only [ho] at hgrows ⊢
        have hnext : (s.submitForm form).session.Reachable := hs.grows (s.grows_submitForm form)
        have hlater := (grows_submitReadings _ (rs ++ bad)).trans hgrows
        have hserves : ∀ h ∈ handle, (s.submitForm form).session.Serves h := by
          rintro h rfl
          exact s.serves_submitForm form h ho
        have hline := hlater.line_report (hnext.grows hlater) source text handle hserves
        have hrest := ih hnext rs hrs hgrows
        rw [← hrest, List.filterMap_cons, hline]
        cases ((s.submitForm form).session.report text (.ok handle)).1 <;> rfl

theorem Reachable.length_evaluateEach (hs : s.Reachable) {texts : List String} {forms : List Form}
    (htexts : List.Forall₂ (fun text form => (readForm text).result = .ok form) texts forms) :
    (s.evaluateEach texts).1.length =
      (s.accepted forms).countP fun form => form.definition?.isNone := by
  induction htexts generalizing s with
  | nil => rfl
  | @cons text form texts forms htext htexts ih =>
    rw [evaluateEach_cons text texts form htext, accepted]
    cases ho : (s.submitForm form).result with
    | error e => rfl
    | ok handle =>
      have hline := hs.line_submitForm form handle ho text
      have hrest := ih (hs.grows (s.grows_submitForm form))
      rw [List.length_append, hrest, List.countP_cons, ← hline]
      cases ((s.submitForm form).session.report text (.ok handle)).1 with
      | none => simp
      | some line => simp [Nat.add_comm]

theorem Reachable.evaluate_of_readForms (hs : s.Reachable) {texts : List String} {forms : List Form}
    (htexts : List.Forall₂ (fun text form => (readForm text).result = .ok form) texts forms)
    (source : String) (rs bad : List Reading)
    (hsource : (TokenStream.ofString source).readForms = rs ++ bad)
    (hrs : rs.map Reading.result = forms.map .ok) (hbad : ∀ r ∈ bad, ∃ e, r.result = .error e) :
    ((s.evaluate source).lines, (s.evaluate source).session) = s.evaluateEach texts := by
  have heach := hs.submitReadings_eq_evaluateEach source htexts rs bad hrs hbad (.refl _)
  rw [← heach, evaluate, submitAll, hsource]
  simp only [List.filterMap_map, Function.comp_def]

/-- A source of forms that are separated by blanks is evaluated as its forms are one by one, up to
the first that does not compile. More text changes nothing if its first form has a fault. There is
one line for each form before the first failure that is no definition. -/
theorem evaluate_eq_evaluateEach (s : Session) (hs : s.Reachable) (texts : List String)
    (forms : List Form)
    (htexts : List.Forall₂ (fun text form => Derives (tokenize text.toList) form) texts forms)
    (source : String) (hsource : Spaced texts source) :
    ((s.evaluate source).lines, (s.evaluate source).session) = s.evaluateEach texts ∧
      (∀ separator tail e, IsSeparator separator → (readForm tail).result = .error e →
        (s.evaluate (source ++ separator ++ tail)).lines = (s.evaluate source).lines ∧
        (s.evaluate (source ++ separator ++ tail)).session = (s.evaluate source).session) ∧
      (s.evaluate source).lines.length =
        (s.accepted forms).countP fun form => form.definition?.isNone := by
  have hforms := htexts.imp fun text form h => h.readForm
  have hsame : ((s.evaluate source).lines, (s.evaluate source).session) = s.evaluateEach texts := by
    obtain ⟨rs, hrs, hread⟩ := readForms_flatMap htexts []
    rw [List.append_nil, ← hsource.tokenize, TokenStream.readForms_nil] at hread
    exact hs.evaluate_of_readForms hforms source rs [] hread hrs (by simp)
  refine ⟨hsame, fun separator tail e hseparator htail => ?_, ?_⟩
  · obtain ⟨rs, hrs, hread⟩ := readForms_flatMap htexts (tokenize tail.toList)
    rw [← hsource.tokenize, ← tokenize_separated source tail separator hseparator] at hread
    have hbad := readForms_of_error tail e htail
    have hlonger := hs.evaluate_of_readForms hforms (source ++ separator ++ tail) rs _ hread hrs
      fun r hr => ⟨e, hbad r hr⟩
    exact Prod.mk.inj (hlonger.trans hsame.symm)
  · have hlength := hs.length_evaluateEach hforms
    rwa [← hsame] at hlength

def redefined : List String := ["(def f () x)", "(f)", "(def f () inf)", "(f)"]

def redefinedForms : List Form :=
  [.definition "f" [] (.var "x"), .call "f" [], .definition "f" [] (.number (.infinite false)),
    .call "f" []]

theorem derives_redefined :
    List.Forall₂ (fun text form => Derives (tokenize text.toList) form) redefined
      redefinedForms := by
  have hnone : ∀ p ∈ [], IsParamName p := by simp
  have hcall : Derives (tokenize "(f)".toList) (.call "f" []) := .call (by decide) .nil
  have hzero : Derives [.atom "x"] (.var "x") := .var (by decide)
  have hinf : Derives [.atom "inf"] (.number (.infinite false)) := .number (by decide)
  exact .cons (.definition "f" hnone hzero) (.cons hcall (.cons (.definition "f" hnone hinf)
    (.cons hcall .nil)))

theorem evaluate_eq_evaluateEach_redefined :
    (evaluate {} "(def f () x) (f)\n(def f () inf) (f)").lines = (evaluateEach {} redefined).1 ∧
      (evaluate {} "(def f () x) (f)\n(def f () inf) (f)").lines.length = 2 ∧
      (evaluate {} ("(def f () x) (f)\n(def f () inf) (f)" ++ " " ++ ") (f)")).lines =
        (evaluate {} "(def f () x) (f)\n(def f () inf) (f)").lines := by
  have hsource : Spaced redefined "(def f () x) (f)\n(def f () inf) (f)" :=
    .cons "(def f () x)" isSeparator_space (.cons "(f)" isSeparator_newline
      (.cons "(def f () inf)" isSeparator_space (.single "(f)")))
  obtain ⟨hsame, htail, hlength⟩ := evaluate_eq_evaluateEach {} ⟨{}, .refl _⟩ redefined
    redefinedForms derives_redefined _ hsource
  exact ⟨congrArg Prod.fst hsame, hlength, (htail " " ") (f)" .strayClose isSeparator_space rfl).1⟩

end Session

end FourLane
