import FourLane.Proofs.Atomicity
import FourLane.Proofs.Course
import FourLane.Proofs.ReliableBackends

/-!
# A session is what was built in it with success

Requests can fail, and texts can have several forms, of which only the first few compile. Every
request takes a course of the builds in it that succeed. A session that started new is therefore
the replay of its successes, whatever else was asked.
-/
namespace FourLane

/-! ### The log of the reader -/

def Progress.log : Progress → Array Event
  | .more r => r.log
  | .finished _ log => log

namespace Reader

theorem log_deliver (frames : List Frame) (log : Array Event) (form : Form) :
    (deliver frames log form).log = log := by
  rcases frames with _ | ⟨_ | _, frames⟩ <;> rfl

theorem isQuiet_feed (r : Reader) (token : Token) (h : ∀ e ∈ r.log, e.isQuiet) :
    ∀ e ∈ (r.feed token).log, e.isQuiet := by
  simp only [feed]
  split
  case h_2 => rwa [log_deliver]
  case h_4 =>
    split
    · rwa [log_deliver]
    · exact h
  case h_5 => split_ifs <;> exact h
  case h_11 => split_ifs <;> exact h
  case h_14 =>
    rw [log_deliver]
    intro e he
    rcases Array.mem_push.mp he with he | rfl
    · exact h e he
    · rfl
  all_goals exact h

theorem isQuiet_run (r : Reader) (tokens : List Token) (h : ∀ e ∈ r.log, e.isQuiet) :
    ∀ e ∈ (r.run tokens).log, e.isQuiet := by
  induction tokens generalizing r with
  | nil => simpa [run] using h
  | cons token tokens ih =>
    have hfeed := r.isQuiet_feed token h
    rw [run]
    cases hr : r.feed token with
    | more r' =>
      rw [hr] at hfeed
      exact ih r' hfeed
    | finished result log =>
      rw [hr] at hfeed
      simpa [Progress.log] using hfeed

end Reader

theorem TokenStream.isQuiet_read (s : TokenStream) : ∀ e ∈ s.read.log, e.isQuiet :=
  Reader.isQuiet_run _ _ (by simp)

theorem TokenStream.isQuiet_readForms (s : TokenStream) :
    ∀ r ∈ s.readForms, ∀ e ∈ r.log, e.isQuiet := by
  have hnext (s : TokenStream) (r : Reading) (h : s.readNext? = some r) :
      ∀ e ∈ r.log, e.isQuiet := by
    unfold readNext? at h
    split at h
    · cases h
    · cases h
      exact isQuiet_read _
  fun_induction readForms s with
  | case1 s h => simp
  | case2 s r h e he => simpa using hnext s r h
  | case3 s r h form hform ih =>
    intro r' hr'
    rcases List.mem_cons.mp hr' with rfl | hr'
    · exact hnext s r' h
    · exact ih r' hr'

/-! ### What requests ask to be built -/

/-- The forms before the first fault. -/
def Reading.leading : List Reading → List Form
  | [] => []
  | r :: rs =>
    match r.result with
    | .error _ => []
    | .ok form => form :: leading rs

/-- What is built for a form that is submitted. -/
def Build.ofForm (form : Form) : Build :=
  match form.definition? with
  | some d => .define d
  | none => .exportExpression form []

/-- What a request asks to be built, in order. -/
def Request.builds : Request → List Build
  | .define text =>
    ((Reading.leading [readForm text]).filterMap Form.definition?).map .define
  | .exportDefinition text =>
    ((Reading.leading [readForm text]).filterMap Form.definition?).map .exportDefinition
  | .exportExpression text params =>
    (Reading.leading [readForm text]).map fun form => .exportExpression form params
  | .submit text | .evaluateFirst text => (Reading.leading [readForm text]).map .ofForm
  | .submitAll text | .evaluate text =>
    (Reading.leading (TokenStream.ofString text).readForms).map .ofForm
  | .defineForm d => [.define d]
  | .exportDefinitionForm d => [.exportDefinition d]
  | .exportExpressionForm body params => [.exportExpression body params]
  | .call .. | .enter .. | .arity _ | .listing | .settings | .reset => []

namespace Session

def succeeded (s : Session) (builds : List Build) (backend : Backend := .plain) : List Build :=
  match builds with
  | [] => []
  | b :: builds =>
    match (s.attempt b backend).result with
    | .error _ => []
    | .ok _ => b :: (s.build b backend).succeeded builds backend

theorem attempt_of_reliable {backend : Backend} (h : backend.Reliable) (s : Session) (b : Build) :
    s.attempt b backend = s.attempt b := s.compile_of_reliable h _ _ _ _

theorem succeeded_of_reliable {backend : Backend} (h : backend.Reliable) (s : Session)
    (builds : List Build) : s.succeeded builds backend = s.succeeded builds := by
  induction builds generalizing s with
  | nil => rfl
  | cons b builds ih => simp only [succeeded, attempt_of_reliable h, build_of_reliable h, ih]

/-! ### Every request takes a course -/

theorem succeeded_of_error {s : Session} {b : Build} {e : CompileFault}
    (h : (s.attempt b).result = .error e) (builds : List Build) :
    s.succeeded (b :: builds) = [] := by
  rw [succeeded, h]

theorem succeeded_of_ok {s : Session} {b : Build} {handle : Handle}
    (h : (s.attempt b).result = .ok handle) (builds : List Build) :
    s.succeeded (b :: builds) = b :: (s.build b).succeeded builds := by
  rw [succeeded, h]

/-- The course of one build whose outcome is logged with its records. -/
theorem course_of_log (s : Session) (b : Build) (log : List Event)
    (hlog : ∀ compiling result,
      Routine.compile s.registry s.next b.convention b.params b.body = (result, compiling) →
        log = compiling ++ match result with
          | .error _ => []
          | .ok _ => s.records b) :
    Course s (s.succeeded [b]) (s.build b) log := by
  rcases s.build_cases b with ⟨e, compiling, hr, hs, hbuild⟩ | ⟨r, compiling, hr, hs, -⟩
  · have hquiet := Routine.isQuiet_of_compile _ _ _ _ _ _ _ hr
    rw [succeeded_of_error (by rw [hs]), hbuild, hlog compiling _ hr, List.append_nil]
    exact .quiet s compiling hquiet
  · have hquiet := Routine.isQuiet_of_compile _ _ _ _ _ _ _ hr
    have hresult : (s.attempt b).result = .ok ⟨r.number, b.params.length⟩ := by rw [hs]
    have hone : Course s [b] (s.build b) (s.records b ++ []) := .success hresult .done
    rw [succeeded_of_ok hresult, hlog compiling _ hr]
    rw [List.append_nil] at hone
    exact hone.after_quiet hquiet

theorem course_export (s : Session) (b : Build) (h : b.convention = .byAddress) :
    Course s (s.succeeded [b]) (s.build b) (s.attempt b).log := by
  refine s.course_of_log b _ fun compiling result hr => ?_
  rcases s.build_cases b with ⟨e, log, hr', hs, -⟩ | ⟨r, log, hr', hs, -⟩
  · cases hr.symm.trans hr'
    rw [hs, List.append_nil]
  · cases hr.symm.trans hr'
    rw [hs]
    simp [records, h, Build.record]

theorem course_define (s : Session) (d : Definition) :
    Course s (s.succeeded [.define d]) (s.define d).session (s.define d).log := by
  refine s.course_of_log (.define d) _ fun compiling result hr => ?_
  change Routine.compile s.registry s.next .byValue d.params d.body = _ at hr
  rcases s.define_cases d with ⟨e, log, hr', hs⟩ | ⟨r, log, hr', hs⟩
  · cases hr.symm.trans hr'
    rw [hs, List.append_nil]
  · cases hr.symm.trans hr'
    rw [hs]
    simp only [records, Build.record, Build.name, Build.convention, Build.params, true_and]
    split_ifs <;> simp

theorem course_submitForm (s : Session) (form : Form) :
    Course s (s.succeeded [.ofForm form]) (s.submitForm form).session (s.submitForm form).log := by
  rw [submitForm, Build.ofForm]
  cases form.definition? with
  | some d => exact s.course_define d
  | none => exact .other rfl (s.course_export (.exportExpression form []) rfl)

theorem course_withForm {α : Type} (s : Session) (text : String) (request : Form → Outcome α)
    (builds : Form → List Build)
    (h : ∀ form, Course s (s.succeeded (builds form)) (request form).session (request form).log) :
    Course s (s.succeeded ((Reading.leading [readForm text]).flatMap builds))
      (s.withForm text request).session (s.withForm text request).log := by
  have hread : ∀ e ∈ (readForm text).log, e.isQuiet := TokenStream.isQuiet_read _
  simp only [withForm, Reading.leading]
  cases (readForm text).result with
  | error e => exact .quiet s _ hread
  | ok form =>
    simp only [List.flatMap_cons, List.flatMap_nil, List.append_nil]
    exact (h form).after_quiet hread

theorem course_withDefinition {α : Type} (s : Session) (text : String)
    (request : Definition → Outcome α) (build : Definition → Build)
    (h : ∀ d, Course s (s.succeeded [build d]) (request d).session (request d).log) :
    Course s
      (s.succeeded (((Reading.leading [readForm text]).filterMap Form.definition?).map build))
      (s.withDefinition text request).session (s.withDefinition text request).log := by
  have hform := s.course_withForm text
    (fun form => match form.definition? with
      | some d => request d
      | none => ⟨.error .notDefinition, s, []⟩)
    (fun form => form.definition?.toList.map build) (fun form => by
      cases form.definition? with
      | some d => exact h d
      | none => exact .done)
  rw [← List.map_flatMap, ← List.filterMap_eq_flatMap_toList] at hform
  exact hform

theorem attempt_ofForm_cases (s : Session) (form : Form) :
    (∃ e, (s.submitForm form).result = .error e ∧ (s.attempt (.ofForm form)).result = .error e) ∨
      ∃ handle issued, (s.submitForm form).result = .ok issued ∧
        (s.attempt (.ofForm form)).result = .ok handle ∧
        (s.submitForm form).session = s.build (.ofForm form) := by
  rw [submitForm, Build.ofForm]
  cases form.definition? with
  | some d =>
    change (∃ e, (s.define d).result.map _ = _ ∧ _) ∨ ∃ handle issued,
      (s.define d).result.map _ = _ ∧ _
    have hattempt : s.attempt (.define d) = s.compile .byValue d.name d.params d.body := rfl
    rw [hattempt, define]
    rcases s.compile_cases .byValue d.name d.params d.body with ⟨e, log, -, hs⟩ | ⟨r, log, -, hs⟩
    · exact .inl ⟨e, by rw [hs]; rfl, by rw [hs]⟩
    · exact .inr ⟨_, none, by rw [hs]; rfl, by rw [hs], rfl⟩
  | none =>
    have hattempt : s.attempt (.exportExpression form []) = s.exportExpression form [] := rfl
    simp only [hattempt]
    cases hr : (s.exportExpression form []).result with
    | error e => exact .inl ⟨e, rfl, rfl⟩
    | ok handle => exact .inr ⟨handle, some handle, rfl, rfl, rfl⟩

theorem course_submitReadings (s : Session) (rs : List Reading)
    (hrs : ∀ r ∈ rs, ∀ e ∈ r.log, e.isQuiet) :
    Course s (s.succeeded ((Reading.leading rs).map .ofForm)) (s.submitReadings rs).session
      (s.submitReadings rs).log := by
  induction rs generalizing s with
  | nil => exact .done
  | cons r rs ih =>
    rw [List.forall_mem_cons] at hrs
    rw [submitReadings, Reading.leading]
    cases r.result with
    | error e => exact .quiet s _ hrs.1
    | ok form =>
      have hform := s.course_submitForm form
      simp only [List.map_cons]
      rcases s.attempt_ofForm_cases form with ⟨e, he, hattempt⟩ |
        ⟨handle, issued, ho, hattempt, hsession⟩
      · rw [he, succeeded_of_error hattempt]
        rw [succeeded_of_error hattempt] at hform
        exact hform.after_quiet hrs.1
      · have hrest := hform.trans (ih (s.submitForm form).session hrs.2)
        rw [ho, succeeded_of_ok hattempt, ← hsession]
        rw [succeeded_of_ok hattempt] at hrest
        simp only [List.append_assoc]
        exact hrest.after_quiet hrs.1

theorem isQuiet_report (s : Session) (source : String)
    (result : Except CompileFault (Option Handle)) :
    ∀ e ∈ (s.report source result).2, e.isQuiet := by
  rcases result with e | _ | handle
  · simp [report, Event.isQuiet]
  · simp [report]
  · rw [report]
    cases s.call handle [] <;> simp [Event.isQuiet]

end Session

namespace Host

open Session (Course)

def history (host : Host) (requests : List Request) (backend : Backend := .plain) : List Build :=
  match requests with
  | [] => []
  | request :: requests =>
    host.session.succeeded request.builds backend ++
      (host.serve request backend).host.history requests backend

def logOf (host : Host) (requests : List Request) (backend : Backend := .plain) : List Event :=
  (host.replies requests backend).flatMap Reply.log

theorem history_of_reliable {backend : Backend} (h : backend.Reliable) (host : Host)
    (requests : List Request) : host.history requests backend = host.history requests := by
  induction requests generalizing host with
  | nil => rfl
  | cons request requests ih =>
    rw [history, history, Session.succeeded_of_reliable h, (host_serve_of_reliable h host request).1,
      ih]

theorem logOf_of_reliable {backend : Backend} (h : backend.Reliable) (host : Host)
    (requests : List Request) : host.logOf requests backend = host.logOf requests := by
  induction requests generalizing host with
  | nil => rfl
  | cons request requests ih =>
    obtain ⟨hhost, hlog⟩ := host_serve_of_reliable h host request
    have hrest := ih (host.serve request).host
    simp only [logOf, replies, List.flatMap_cons, hhost, hlog] at hrest ⊢
    rw [hrest]

theorem course_serve (host : Host) (request : Request) (h : request ≠ .reset) :
    Course host.session (host.session.succeeded request.builds) (host.serve request).host.session
      (host.serve request).log := by
  have hreadForms (text : String) := TokenStream.isQuiet_readForms (TokenStream.ofString text)
  have hsubmit (text : String) : Course host.session
      (host.session.succeeded ((Reading.leading [readForm text]).map .ofForm))
      (host.session.submit text).session (host.session.submit text).log := by
    rw [List.map_eq_flatMap]
    exact host.session.course_withForm text _ _ host.session.course_submitForm
  cases request with
  | define text => exact host.session.course_withDefinition text _ _ host.session.course_define
  | exportDefinition text =>
    exact host.session.course_withDefinition text _ _ fun d =>
      host.session.course_export (.exportDefinition d) rfl
  | exportExpression text params =>
    rw [Request.builds, List.map_eq_flatMap]
    exact host.session.course_withForm text _ _ fun form =>
      host.session.course_export (.exportExpression form params) rfl
  | submit text => exact hsubmit text
  | submitAll text => exact host.session.course_submitReadings _ (hreadForms text)
  | evaluateFirst line =>
    exact (hsubmit line).before_quiet (Session.isQuiet_report _ _ _)
  | evaluate source =>
    refine (host.session.course_submitReadings _ (hreadForms source)).before_quiet ?_
    intro e he
    obtain ⟨report, hreport, he⟩ := List.mem_flatMap.mp he
    obtain ⟨result, -, rfl⟩ := List.mem_map.mp hreport
    exact Session.isQuiet_report _ _ _ e he
  | defineForm d => exact host.session.course_define d
  | exportDefinitionForm d => exact host.session.course_export (.exportDefinition d) rfl
  | exportExpressionForm body params =>
    exact host.session.course_export (.exportExpression body params) rfl
  | call ref args => exact .done
  | enter ref args => exact .done
  | arity name => exact .done
  | listing => exact .done
  | settings => exact .done
  | reset => exact absurd rfl h

theorem course_after (host : Host) (requests : List Request) (h : .reset ∉ requests) :
    Course host.session (host.history requests) (host.after requests).session
      (host.logOf requests) := by
  induction requests generalizing host with
  | nil => exact .done
  | cons request requests ih =>
    rw [List.mem_cons, not_or] at h
    exact (host.course_serve request (Ne.symm h.1)).trans (ih (host.serve request).host h.2)

theorem map_record_eq (listing : List Listed) (builds : List Build) (first : Nat)
    (h : listing.map Listed.heading =
      builds.mapIdx fun k b => (b.name, first + k, b.convention, b.params.length)) :
    listing.map Listed.record = builds.map Build.record := by
  refine List.ext_getElem? fun i => ?_
  have hi := congrArg (fun entries => entries[i]?) h
  simp only [List.getElem?_map, List.getElem?_mapIdx] at hi ⊢
  cases hl : listing[i]? with
  | none =>
    cases hb : builds[i]? with
    | none => rfl
    | some b => simp [hl, hb] at hi
  | some l =>
    cases hb : builds[i]? with
    | none => simp [hl, hb] at hi
    | some b =>
      simp only [hl, hb, Option.map_some, Option.some.injEq, Listed.heading, Prod.mk.injEq] at hi
      simp [Listed.record, Build.record, hi]

/-- The first line of the text says what the message of the record says. -/
def Announces (text : String) (record : Event) : Prop :=
  ∃ name convention n code, record = .compiled name convention n ∧
    record.message = s!"compiled `{name}` ({convention.text} convention, {n} param(s))" ∧
    text = s!"; {name} ({convention.text}, {n} param(s))" ++ "\n" ++ code

theorem announces_listingTexts (s : Session) (backend : Backend) (records : List Event)
    (h : s.listing.map Listed.record = records) :
    List.Forall₂ Announces (s.listingTexts backend) records := by
  rw [Session.listingTexts, ← h, List.forall₂_map_left_iff, List.forall₂_map_right_iff,
    List.forall₂_same]
  exact fun l _ => ⟨l.name, l.routine.convention, l.routine.arity, _, rfl, rfl, rfl⟩

/-- A session that started new is the replay of what was built in it with success. The builds are
numbered from five on. A name has the arity of the last definition of it that succeeded. The log
has one record of compilation for each build, and so has a listing, in the same order. The first
line of each text of the listing says what the message of its record says. A record of shadowing
follows the record of a definition exactly if the name was defined before, and stands nowhere
else. -/
theorem session_of_history (host : Host) (settings : Settings) (hnew : host.session = { settings })
    (requests : List Request) (hrun : .reset ∉ requests) (backend : Backend)
    (hbackend : backend.Reliable) :
    let history := host.history requests backend
    let s := (host.after requests backend).session
    let log := host.logOf requests backend
    s = Session.after { settings } history backend ∧
      (∀ k b, history[k]? = some b →
        ((Session.after { settings } (history.take k) backend).attempt b backend).result =
          .ok ⟨5 + k, b.params.length⟩) ∧
      (∀ name, s.arity? name =
        (history.reverse.find? fun b => b.Registers name).map fun b => b.params.length) ∧
      log.filter Event.isCompiled = history.map Build.record ∧
      (settings.capture →
        s.listing.map Listed.heading =
          history.mapIdx (fun k b => (b.name, 5 + k, b.convention, b.params.length)) ∧
        s.listing.map Listed.record = log.filter Event.isCompiled ∧
        List.Forall₂ Announces (s.listingTexts backend) (log.filter Event.isCompiled)) ∧
      (∀ before after name convention n, log = before ++ .compiled name convention n :: after →
        (after.head? = some (.shadowed name) ↔
          convention = .byValue ∧ ∃ m, .compiled name .byValue m ∈ before)) ∧
      ∀ before after name, log = before ++ .shadowed name :: after →
        ∃ n, before.getLast? = some (.compiled name .byValue n) := by
  have hcourse := host.course_after requests hrun
  rw [hnew] at hcourse
  simp only [history_of_reliable hbackend, after_of_reliable hbackend, logOf_of_reliable hbackend,
    Session.after_of_reliable hbackend, Session.attempt_of_reliable hbackend]
  refine ⟨hcourse.session_eq, hcourse.numbers, ?_, hcourse.compiled_eq, ?_, ?_,
    hcourse.compiled_of_shadowed⟩
  · intro name
    exact (hcourse.arity?_eq name).trans (Option.or_none)
  · intro hcapture
    have hlisting := hcourse.listing_eq hcapture
    have hrecords := (map_record_eq _ _ 5 hlisting).trans hcourse.compiled_eq.symm
    exact ⟨hlisting, hrecords, announces_listingTexts _ backend _ hrecords⟩
  · intro before after name convention n hlog
    have hshadow := hcourse.shadowed_iff before after name convention n hlog
    simpa [Session.arity?] using hshadow

/-- A name that is defined, exported, called wrongly and defined again. -/
def rebinding : List Request :=
  [.defineForm ⟨"f", ["x"], .var "x"⟩, .exportDefinitionForm ⟨"f", [], .var "z"⟩,
    .defineForm ⟨"g", [], .call "f" []⟩, .defineForm ⟨"f", ["x", "y"], .var "y"⟩]

def silent : Backend where
  optimized _ _ := ""

theorem session_of_history_rebinding :
    ((start { capture := true }).after rebinding silent).session.arity? "f" = some 2 ∧
      (((start { capture := true }).after rebinding silent).session.listing.map Listed.heading =
        [("f", 5, .byValue, 1), ("f", 6, .byAddress, 0), ("f", 7, .byValue, 2)]) := by
  obtain ⟨-, -, harity, -, hlisting, -⟩ :=
    (start { capture := true }).session_of_history { capture := true } rfl rebinding
      (by simp [rebinding]) silent ⟨rfl, fun _ => rfl⟩
  have hhistory : (start { capture := true }).history rebinding silent =
      [.define ⟨"f", ["x"], .var "x"⟩, .exportDefinition ⟨"f", [], .var "z"⟩,
        .define ⟨"f", ["x", "y"], .var "y"⟩] := rfl
  rw [hhistory] at harity hlisting
  exact ⟨harity "f", (hlisting rfl).1⟩

end Host
end FourLane
