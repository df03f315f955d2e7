import FourLane.Proofs.Atomicity
import FourLane.Proofs.Twins

/-!
# Only definitions influence later requests

A client holds the handles that it was given under labels, and calls them by these. If requests
that register nothing are left out of what it asks, and with them the calls on what they gave, it
sees the same in all others: the same answers, up to the numbers of routines, and the same log.
-/
namespace FourLane

def Request.isRefless : Request → Bool
  | .call .. | .enter .. => false
  | _ => true

/-- What a client does. Handles are called by the label of the step that gave them, and by their
place among those that it gave. -/
inductive Step where
  | ask (request : Request) (h : request.isRefless)
  | call (label : Nat) (args : List Quad) (place : Nat := 0)
  | enter (label : Nat) (args : List Quad) (place : Nat := 0)

/-- The handles of a batch are those of its expressions. -/
def Answer.refs : Answer → List Ref
  | .compiled ref => [ref]
  | .submitted ref => ref.toList
  | .batch results => results.flatMap fun result => (result.toOption.bind id).toList
  | _ => []

def Ref.anonymous (ref : Ref) : Ref := ⟨ref.epoch, ⟨0, ref.handle.arity⟩⟩

/-- An answer without numbers of routines. A listing is seen as it grows. -/
def Answer.anonymous : Answer → Answer
  | .compiled ref => .compiled ref.anonymous
  | .submitted ref => .submitted (ref.map Ref.anonymous)
  | .batch results => .batch (results.map (Except.map (Option.map Ref.anonymous)))
  | .listing _ => .listing []
  | answer => answer

/-- What a client sees of a step: the answer, unless it holds no such handle, what was logged and
what was listed. -/
structure Observation where
  answer : Option Answer
  log : List Event
  listed : List Listed

structure Client where
  host : Host
  held : List (Nat × Ref) := []

namespace Client

def start (settings : Settings) : Client := { host := .start settings }

def handles (c : Client) (label : Nat) : List Ref :=
  (c.held.filter fun entry => entry.1 = label).map Prod.snd

def request? (c : Client) : Step → Option Request
  | .ask request _ => some request
  | .call label args place => (c.handles label)[place]?.map fun ref => .call ref args
  | .enter label args place => (c.handles label)[place]?.map fun ref => .enter ref args

def next (c : Client) (label : Nat) (step : Step) : Client :=
  match c.request? step with
  | none => c
  | some request =>
    let reply := c.host.serve request
    ⟨reply.host, reply.answer.refs.map (Prod.mk label) ++ c.held⟩

def see (c : Client) (step : Step) : Observation :=
  match c.request? step with
  | none => ⟨none, [], []⟩
  | some request =>
    let reply := c.host.serve request
    ⟨some reply.answer.anonymous, reply.log,
      (reply.host.session.listing.drop c.host.session.listing.length).map Listed.anonymous⟩

def observe (c : Client) : List (Nat × Step) → List (Nat × Observation)
  | [] => []
  | (label, step) :: script => (label, c.see step) :: (c.next label step).observe script

/-- The step registers nothing. -/
def Idle (c : Client) (step : Step) : Prop :=
  ∀ request, c.request? step = some request → request ≠ .reset ∧
    (c.host.serve request).host.session.registry = c.host.session.registry

/-- All that is left out registers nothing, and no handle that it gave is called in the rest. -/
def Deletable (keep : Nat → Bool) (c : Client) : List (Nat × Step) → Prop
  | [] => True
  | (label, step) :: script =>
    (if keep label then
      match step with
      | .ask .. => True
      | .call called .. | .enter called .. => keep called
    else c.Idle step) ∧ (c.next label step).Deletable keep script

end Client

namespace Session

theorem GrowAlike.listed_eq {σ : Nat → Nat} {s s' t t' : Session} (h : GrowAlike σ s s' t t') :
    (t.listing.drop s.listing.length).map Listed.anonymous =
      (t'.listing.drop s'.listing.length).map Listed.anonymous := by
  obtain ⟨added, added', hlisting, hlisting', hsame⟩ := h.listing
  rw [hlisting, hlisting', List.drop_left, List.drop_left, hsame]

theorem SameBatch.map_results_eq {β : Type} {σ : Nat → Nat} {s s' : Session} {b b' : Batch}
    (h : SameBatch σ s s' b b') (f g : Except CompileFault (Option Handle) → β)
    (hfg : ∀ r r', SameResult (AlikeForm b.session b'.session) r r' → f r = g r') :
    b.results.map f = b'.results.map g := by
  have hmap : List.Forall₂ Eq (b.results.map f) (b'.results.map g) := by
    rw [List.forall₂_map_left_iff, List.forall₂_map_right_iff]
    exact h.results.imp hfg
  rwa [List.forall₂_eq_eq_eq] at hmap

theorem registry_compile (s : Session) (convention : Convention) (name : String)
    (params : List String) (body : Form) :
    (s.compile convention name params body).session.registry = s.registry := by
  rcases s.compile_cases convention name params body with ⟨e, log, -, hs⟩ | ⟨r, log, -, hs⟩
  · rw [hs]
  · rw [hs]
    rfl

theorem registry_withForm {α : Type} (s : Session) (text : String) (request : Form → Outcome α)
    (h : ∀ form, (readForm text).result = .ok form →
      (request form).session.registry = s.registry) :
    (s.withForm text request).session.registry = s.registry := by
  simp only [withForm]
  cases hr : (readForm text).result with
  | error e => rfl
  | ok form => exact h form hr

theorem registry_submit (s : Session) (text : String) (form : Form)
    (hread : (readForm text).result = .ok form) (hform : form.definition? = none) :
    (s.submit text).session.registry = s.registry := by
  refine s.registry_withForm text _ fun form' hread' => ?_
  cases hread.symm.trans hread'
  rw [submitForm, hform]
  exact s.registry_compile _ _ _ _

end Session

namespace Host

open Session (Twin Alike AlikeForm SameOutcome SameBatch SameResult GrowAlike)

theorem retired_serve (host : Host) (request : Request) (h : request ≠ .reset) :
    (host.serve request).host.retired = host.retired := by
  cases request with
  | reset => exact absurd rfl h
  | _ => rfl

theorem grows_serve (host : Host) (request : Request) (h : request ≠ .reset) :
    host.session.Grows (host.serve request).host.session := by
  rcases host.serve_host request with ⟨s, hs, heq⟩ | heq
  · rwa [heq]
  · have hlength := congrArg List.length (host.retired_serve request h)
    rw [heq] at hlength
    simp at hlength

/-- Two clients hold handles of the same epoch that are alike. -/
inductive HeldAlike (host host' : Host) : Ref → Ref → Prop
  | handle {epoch : Nat} {handle handle' : Handle} {s s' : Session}
    (hs : host.sessionAt? epoch = some s) (hs' : host'.sessionAt? epoch = some s')
    (h : Alike s s' handle handle') : HeldAlike host host' ⟨epoch, handle⟩ ⟨epoch, handle'⟩

def Keeps (host later : Host) : Prop :=
  ∀ epoch s, host.sessionAt? epoch = some s → ∃ t, later.sessionAt? epoch = some t ∧ s.Grows t

theorem HeldAlike.keeps {host host' later later' : Host} {ref ref' : Ref}
    (h : HeldAlike host host' ref ref') (hk : host.Keeps later) (hk' : host'.Keeps later')
    (hr : later.Reachable) (hr' : later'.Reachable) : HeldAlike later later' ref ref' := by
  obtain ⟨hs, hs', halike⟩ := h
  obtain ⟨t, ht, hgrows⟩ := hk _ _ hs
  obtain ⟨t', ht', hgrows'⟩ := hk' _ _ hs'
  exact .handle ht ht' (halike.grows hgrows hgrows' (hr.session _ t ht) (hr'.session _ t' ht'))

structure SameReply (σ : Nat → Nat) (host host' : Host) (reply reply' : Reply) : Prop where
  twin : Twin σ reply.host.session reply'.host.session
  epoch : reply.host.epoch = reply'.host.epoch
  log : reply.log = reply'.log
  listed : (reply.host.session.listing.drop host.session.listing.length).map Listed.anonymous =
    (reply'.host.session.listing.drop host'.session.listing.length).map Listed.anonymous
  answer : reply.answer.anonymous = reply'.answer.anonymous
  issued : List.Forall₂ (HeldAlike reply.host reply'.host) reply.answer.refs reply'.answer.refs

variable {σ : Nat → Nat} {host host' : Host}

theorem same_reply {α : Type} {R : Session → Session → α → α → Prop} {o o' : Outcome α}
    (hepoch : host.epoch = host'.epoch) (h : SameOutcome σ host.session host'.session R o o')
    (answer answer' : α → Answer)
    (hanswer : ∀ a a', R o.session o'.session a a' →
      (answer a).anonymous = (answer' a').anonymous ∧
        List.Forall₂
          (HeldAlike { host with session := o.session } { host' with session := o'.session })
          (answer a).refs (answer' a').refs) :
    SameReply σ host host' (host.reply o answer) (host'.reply o' answer') := by
  obtain ⟨hgrow, hlog, hresult⟩ := h
  have hboth : (host.reply o answer).answer.anonymous = (host'.reply o' answer').answer.anonymous ∧
      List.Forall₂ (HeldAlike (host.reply o answer).host (host'.reply o' answer').host)
        (host.reply o answer).answer.refs (host'.reply o' answer').answer.refs := by
    simp only [reply]
    generalize o.result = result at hresult ⊢
    generalize o'.result = result' at hresult ⊢
    cases hresult with
    | error e => exact ⟨rfl, .nil⟩
    | ok hR => exact hanswer _ _ hR
  exact ⟨hgrow.twin, hepoch, hlog, hgrow.listed_eq, hboth.1, hboth.2⟩

section Issued

variable {s s' : Session}

theorem same_ref {handle handle' : Handle} (hepoch : host.epoch = host'.epoch)
    (h : Alike s s' handle handle') :
    Ref.anonymous ⟨host.epoch, handle⟩ = Ref.anonymous ⟨host'.epoch, handle'⟩ ∧
      HeldAlike { host with session := s } { host' with session := s' } ⟨host.epoch, handle⟩
        ⟨host'.epoch, handle'⟩ := by
  have hs : sessionAt? { host with session := s } host.epoch = some s := List.getElem?_concat_length
  have hs' : sessionAt? { host' with session := s' } host'.epoch = some s' :=
    List.getElem?_concat_length
  rw [hepoch] at hs ⊢
  exact ⟨by rw [Ref.anonymous, h.arity]; rfl, .handle hs hs' h⟩

theorem same_compiled {handle handle' : Handle} (hepoch : host.epoch = host'.epoch)
    (h : Alike s s' handle handle') :
    (host.compiled handle).anonymous = (host'.compiled handle').anonymous ∧
      List.Forall₂ (HeldAlike { host with session := s } { host' with session := s' })
        (host.compiled handle).refs (host'.compiled handle').refs := by
  obtain ⟨hanonymous, halike⟩ := same_ref hepoch h
  exact ⟨congrArg Answer.compiled hanonymous, .cons halike .nil⟩

theorem same_issued {handle handle' : Option Handle} (hepoch : host.epoch = host'.epoch)
    (h : AlikeForm s s' handle handle') :
    (host.issued handle).map Ref.anonymous = (host'.issued handle').map Ref.anonymous ∧
      List.Forall₂ (HeldAlike { host with session := s } { host' with session := s' })
        (host.issued handle).toList (host'.issued handle').toList := by
  cases h with
  | defined => exact ⟨rfl, .nil⟩
  | called h =>
    obtain ⟨hanonymous, halike⟩ := same_ref hepoch h
    exact ⟨congrArg some hanonymous, .cons halike .nil⟩

theorem same_batch {results results' : List (Except CompileFault (Option Handle))}
    (hepoch : host.epoch = host'.epoch)
    (h : List.Forall₂ (SameResult (AlikeForm s s')) results results') :
    (Answer.batch (results.map (Except.map host.issued))).anonymous =
        (Answer.batch (results'.map (Except.map host'.issued))).anonymous ∧
      List.Forall₂ (HeldAlike { host with session := s } { host' with session := s' })
        (Answer.batch (results.map (Except.map host.issued))).refs
        (Answer.batch (results'.map (Except.map host'.issued))).refs := by
  induction h with
  | nil => exact ⟨rfl, .nil⟩
  | cons hfirst hrest ih =>
    obtain ⟨hanonymous, halike⟩ := ih
    have htail := Answer.batch.inj hanonymous
    cases hfirst with
    | error e => exact ⟨congrArg (fun rest => Answer.batch (.error e :: rest)) htail, halike⟩
    | ok hform =>
      obtain ⟨hsame, hheld⟩ := same_issued hepoch hform
      refine ⟨?_, List.rel_append hheld halike⟩
      exact congrArg₂ (fun first rest => Answer.batch (.ok first :: rest)) hsame htail

end Issued

theorem same_serve (h : Twin σ host.session host'.session) (hepoch : host.epoch = host'.epoch)
    (request : Request) (hrequest : request.isRefless) :
    ∃ τ, SameReply τ host host' (host.serve request) (host'.serve request) := by
  have hstill (answer answer' : Answer) (hanswer : answer.anonymous = answer'.anonymous)
      (hnone : answer.refs = []) (hnone' : answer'.refs = []) :
      SameReply σ host host' ⟨answer, host, []⟩ ⟨answer', host', []⟩ :=
    ⟨h, hepoch, rfl, h.growAlike.listed_eq, hanswer, by rw [hnone, hnone']; exact .nil⟩
  have hsubmit (text : String) := h.submit text
  have hbatch (text : String) := h.submitReadings (TokenStream.ofString text).readForms
  cases request with
  | define text =>
    exact ⟨σ, same_reply hepoch (h.withDefinition text _ _ h.define) _ _
      fun _ _ _ => ⟨rfl, .nil⟩⟩
  | exportDefinition text =>
    exact ⟨σ, same_reply hepoch (h.withDefinition text _ _ h.exportDefinition) _ _
      fun _ _ halike => same_compiled hepoch halike⟩
  | exportExpression text params =>
    exact ⟨σ, same_reply hepoch (h.withForm text _ _ fun form => h.exportExpression form params) _ _
      fun _ _ halike => same_compiled hepoch halike⟩
  | submit text =>
    refine ⟨σ, same_reply hepoch (hsubmit text) _ _ fun handle handle' halike => ?_⟩
    exact (same_issued hepoch halike).imp_left (congrArg Answer.submitted)
  | submitAll text =>
    obtain ⟨hgrow, hlog, hresults⟩ := hbatch text
    obtain ⟨hanswer, hissued⟩ := same_batch hepoch hresults
    exact ⟨σ, hgrow.twin, hepoch, hlog, hgrow.listed_eq, hanswer, hissued⟩
  | evaluateFirst line =>
    obtain ⟨hgrow, hlog, hresult⟩ := hsubmit line
    have hreport := Session.report_eq hresult line
    refine ⟨σ, hgrow.twin, hepoch, ?_, hgrow.listed_eq, ?_, .nil⟩
    · simp only [serve, evaluated, Session.evaluateFirst, hlog, hreport]
    · simp only [serve, evaluated, Session.evaluateFirst, hreport]
  | evaluate source =>
    have hreports := (hbatch source).map_results_eq _ _ fun r r' hsame =>
      Session.report_eq hsame source
    obtain ⟨hgrow, hlog, -⟩ := hbatch source
    refine ⟨σ, hgrow.twin, hepoch, ?_, hgrow.listed_eq, ?_, .nil⟩
    · simp only [serve, evaluated, Session.evaluate, Session.submitAll, hlog, hreports]
    · simp only [serve, evaluated, Session.evaluate, Session.submitAll, hreports]
  | defineForm d =>
    exact ⟨σ, same_reply hepoch (h.define d) _ _ fun _ _ _ => ⟨rfl, .nil⟩⟩
  | exportDefinitionForm d =>
    exact ⟨σ, same_reply hepoch (h.exportDefinition d) _ _
      fun _ _ halike => same_compiled hepoch halike⟩
  | exportExpressionForm body params =>
    exact ⟨σ, same_reply hepoch (h.exportExpression body params) _ _
      fun _ _ halike => same_compiled hepoch halike⟩
  | call ref args => cases hrequest
  | enter ref args => cases hrequest
  | arity name => exact ⟨σ, hstill _ _ (congrArg _ (congrArg _ (h.arity?_eq name))) rfl rfl⟩
  | listing => exact ⟨σ, hstill _ _ rfl rfl rfl⟩
  | settings => exact ⟨σ, hstill _ _ (congrArg _ (congrArg _ h.settings)) rfl rfl⟩
  | reset =>
    refine ⟨id, ?_, ?_, rfl, ?_, rfl, .nil⟩
    · change Twin id { settings := host.session.settings } { settings := host'.session.settings }
      rw [h.settings]
      exact Session.twin_new _
    · change (host.retired ++ [host.session]).length = (host'.retired ++ [host'.session]).length
      simpa [epoch] using hepoch
    · change (List.drop _ []).map _ = (List.drop _ []).map _
      rw [List.drop_nil, List.drop_nil]

inductive RegistersNothing (host : Host) : Request → Prop
  | failed {request : Request} {e : CompileFault} (h : host.Fails .plain request e) :
    RegistersNothing host request
  | exportDefinition (text : String) : RegistersNothing host (.exportDefinition text)
  | exportExpression (text : String) (params : List String) :
    RegistersNothing host (.exportExpression text params)
  | exportDefinitionForm (d : Definition) : RegistersNothing host (.exportDefinitionForm d)
  | exportExpressionForm (body : Form) (params : List String) :
    RegistersNothing host (.exportExpressionForm body params)
  | submit {text : String} {form : Form} (hread : (readForm text).result = .ok form)
    (hform : form.definition? = none) : RegistersNothing host (.submit text)
  | evaluateFirst {line : String} {form : Form} (hread : (readForm line).result = .ok form)
    (hform : form.definition? = none) : RegistersNothing host (.evaluateFirst line)

theorem RegistersNothing.registry_serve {request : Request} (h : host.RegistersNothing request) :
    request ≠ .reset ∧
      (host.serve request).host.session.registry = host.session.registry := by
  cases h with
  | failed h =>
    refine ⟨?_, by rw [h.host_serve_of_blameless (.inl Backend.reliable_plain)]⟩
    rintro rfl
    cases h
  | exportDefinition text =>
    refine ⟨nofun, host.session.registry_withForm text _ fun form _ => ?_⟩
    cases form.definition? with
    | some d => exact host.session.registry_compile _ _ _ _
    | none => rfl
  | exportExpression text params =>
    exact ⟨nofun, host.session.registry_withForm text _ fun form _ =>
      host.session.registry_compile _ _ _ _⟩
  | exportDefinitionForm d => exact ⟨nofun, host.session.registry_compile _ _ _ _⟩
  | exportExpressionForm body params => exact ⟨nofun, host.session.registry_compile _ _ _ _⟩
  | submit hread hform => exact ⟨nofun, host.session.registry_submit _ _ hread hform⟩
  | evaluateFirst hread hform => exact ⟨nofun, host.session.registry_submit _ _ hread hform⟩

theorem HeldAlike.call_eq {ref ref' : Ref} (h : HeldAlike host host' ref ref')
    (args : List Quad) :
    host.call ref args = host'.call ref' args ∧ host.enter ref args = host'.enter ref' args := by
  obtain ⟨hs, hs', halike⟩ := h
  rw [call, call, enter, enter, hs, hs']
  exact ⟨halike.call args, halike.enter args⟩

theorem keeps_serve (host : Host) (request : Request) : host.Keeps (host.serve request).host :=
  host.sessionAt?_serve request

theorem keeps_refl (host : Host) : host.Keeps host := fun _ s hs => ⟨s, hs, .refl s⟩

end Host

namespace Client

open Host (HeldAlike RegistersNothing)

/-- The clients see the same in all steps that are kept. -/
structure Twin (keep : Nat → Bool) (c c' : Client) : Prop where
  reachable : c.host.Reachable
  reachable' : c'.host.Reachable
  epoch : c.host.epoch = c'.host.epoch
  session : ∃ σ, Session.Twin σ c.host.session c'.host.session
  held : ∀ label, keep label →
    List.Forall₂ (HeldAlike c.host c'.host) (c.handles label) (c'.handles label)

theorem handles_issued (host : Host) (refs : List Ref) (label : Nat) (held : List (Nat × Ref))
    (l : Nat) :
    handles ⟨host, refs.map (Prod.mk label) ++ held⟩ l =
      if l = label then refs ++ handles ⟨host, held⟩ l else handles ⟨host, held⟩ l := by
  by_cases hl : l = label
  · simp [handles, hl, List.filter_map, Function.comp_def]
  · simp [handles, hl, List.filter_map, Function.comp_def, Ne.symm hl]

namespace Twin

variable {keep : Nat → Bool} {c c' : Client}

theorem ask (h : Twin keep c c') (label : Nat) (request : Request) (hr : request.isRefless) :
    c.see (.ask request hr) = c'.see (.ask request hr) ∧
      Twin keep (c.next label (.ask request hr)) (c'.next label (.ask request hr)) := by
  obtain ⟨σ, hσ⟩ := h.session
  obtain ⟨τ, hsame⟩ := Host.same_serve hσ h.epoch request hr
  have hreach := h.reachable.after [request]
  have hreach' := h.reachable'.after [request]
  constructor
  · simp only [see, request?, hsame.answer, hsame.log, hsame.listed]
  · refine ⟨hreach, hreach', hsame.epoch, ⟨τ, hsame.twin⟩, fun l hl => ?_⟩
    have hold := (h.held l hl).imp fun ref ref' halike =>
      halike.keeps (c.host.keeps_serve request) (c'.host.keeps_serve request) hreach hreach'
    simp only [next, request?, handles_issued]
    split_ifs with hlabel
    · exact List.rel_append hsame.issued hold
    · exact hold

/-- A handle is called by both clients alike, or held by neither. -/
theorem held_cases (h : Twin keep c c') (label place : Nat) (hlabel : keep label) :
    ((c.handles label)[place]? = none ∧ (c'.handles label)[place]? = none) ∨
      ∃ ref ref', (c.handles label)[place]? = some ref ∧ (c'.handles label)[place]? = some ref' ∧
        ∀ args, c.host.call ref args = c'.host.call ref' args ∧
          c.host.enter ref args = c'.host.enter ref' args := by
  have hheld := h.held label hlabel
  have hlength := hheld.length_eq
  by_cases hplace : place < (c.handles label).length
  · have hplace' := hlength ▸ hplace
    have halike := hheld.get hplace hplace'
    exact .inr ⟨_, _, List.getElem?_eq_getElem hplace, List.getElem?_eq_getElem hplace',
      fun args => halike.call_eq args⟩
  · exact .inl ⟨List.getElem?_eq_none (by omega), List.getElem?_eq_none (by omega)⟩

/-- A step that is kept is seen alike. Its handle, if it calls one, is kept too. -/
theorem kept (h : Twin keep c c') (label : Nat) (step : Step)
    (hstep : match step with
      | .ask .. => True
      | .call called .. | .enter called .. => keep called) :
    c.see step = c'.see step ∧ Twin keep (c.next label step) (c'.next label step) := by
  cases step with
  | ask request hr => exact h.ask label request hr
  | call called args place =>
    simp only [see, next, request?]
    rcases h.held_cases called place hstep with ⟨hnone, hnone'⟩ | ⟨ref, ref', hs, hs', hsame⟩
    · rw [hnone, hnone']
      exact ⟨rfl, h⟩
    · rw [hs, hs']
      exact ⟨by simp [Host.serve, (hsame args).1, Answer.anonymous], h⟩
  | enter called args place =>
    simp only [see, next, request?]
    rcases h.held_cases called place hstep with ⟨hnone, hnone'⟩ | ⟨ref, ref', hs, hs', hsame⟩
    · rw [hnone, hnone']
      exact ⟨rfl, h⟩
    · rw [hs, hs']
      exact ⟨by simp [Host.serve, (hsame args).2, Answer.anonymous], h⟩

theorem dropped (h : Twin keep c c') (label : Nat) (step : Step) (hlabel : ¬ keep label)
    (hidle : c.Idle step) : Twin keep (c.next label step) c' := by
  rw [next]
  cases hrequest : c.request? step with
  | none => exact h
  | some request =>
    obtain ⟨hreset, hregistry⟩ := hidle request hrequest
    obtain ⟨σ, hσ⟩ := h.session
    have hgrows := c.host.grows_serve request hreset
    have hreach := h.reachable.after [request]
    have hepoch : (c.host.serve request).host.epoch = c.host.epoch :=
      congrArg List.length (c.host.retired_serve request hreset)
    refine ⟨hreach, h.reachable', hepoch.trans h.epoch,
      hσ.grows_left hgrows hregistry hgrows.settings, fun l hl => ?_⟩
    have hne : l ≠ label := by
      rintro rfl
      exact hlabel hl
    simp only [handles_issued, if_neg hne]
    exact (h.held l hl).imp fun ref ref' halike =>
      halike.keeps (c.host.keeps_serve request) c'.host.keeps_refl hreach h.reachable'

theorem observe_filter (h : Twin keep c c') (script : List (Nat × Step))
    (hscript : c.Deletable keep script) :
    c'.observe (script.filter fun line => keep line.1) =
      (c.observe script).filter fun line => keep line.1 := by
  induction script generalizing c c' with
  | nil => rfl
  | cons line script ih =>
    obtain ⟨label, step⟩ := line
    obtain ⟨hstep, hrest⟩ := hscript
    rw [observe, List.filter_cons, List.filter_cons]
    by_cases hlabel : keep label
    · rw [if_pos hlabel] at hstep
      obtain ⟨hsee, htwin⟩ := h.kept label step hstep
      simp only [hlabel, if_true, observe, hsee, ih htwin hrest]
    · rw [if_neg hlabel] at hstep
      simp only [hlabel, Bool.false_eq_true, if_false]
      exact ih (h.dropped label step hlabel hstep) hrest

end Twin

theorem twin_start (keep : Nat → Bool) (settings : Settings) :
    Twin keep (start settings) (start settings) where
  reachable := ⟨settings, [], rfl⟩
  reachable' := ⟨settings, [], rfl⟩
  epoch := rfl
  session := ⟨id, Session.twin_new settings⟩
  held _ _ := .nil

theorem idle_call (c : Client) (label : Nat) (args : List Quad) (place : Nat) :
    c.Idle (.call label args place) ∧ c.Idle (.enter label args place) := by
  constructor
  all_goals
    intro request hrequest
    obtain ⟨ref, -, rfl⟩ := Option.map_eq_some_iff.mp hrequest
    exact ⟨nofun, rfl⟩

/-- Steps that register nothing can be left out of a script, with the calls on what they gave, and
all that is kept is seen as before. Requests that fail or compile something to be called from
outside register nothing, nor does a bare expression, nor a call. An exported definition changes
what no name stands for. -/
theorem observe_without_idle (settings : Settings) :
    (∀ keep script, (start settings).Deletable keep script →
      (start settings).observe (script.filter fun line => keep line.1) =
        ((start settings).observe script).filter fun line => keep line.1) ∧
      (∀ (c : Client) (request : Request) (h : request.isRefless),
        c.host.RegistersNothing request → c.Idle (.ask request h)) ∧
      (∀ (c : Client) label args place,
        c.Idle (.call label args place) ∧ c.Idle (.enter label args place)) ∧
      ∀ (s : Session) (d : Definition) (name : String) (count : Nat),
        (s.exportDefinition d).session.arity? name = s.arity? name ∧
          (s.exportDefinition d).session.registry.resolve? name count =
            s.registry.resolve? name count := by
  refine ⟨fun keep script h => (twin_start keep settings).observe_filter script h, ?_, idle_call,
    ?_⟩
  · intro c request h hnothing request' hrequest
    cases hrequest
    exact hnothing.registry_serve
  · intro s d name count
    have hregistry := s.registry_compile .byAddress d.name d.params d.body
    rw [Session.arity?, Session.arity?, Session.exportDefinition, hregistry]
    exact ⟨rfl, rfl⟩

/-- A name that is defined, then exported with another meaning. What is submitted before and
after is called at the end. -/
def overshadowed : List (Nat × Step) :=
  [(0, .ask (.submitAll "(def f (x) x) (f y)") rfl),
    (1, .ask (.exportDefinitionForm ⟨"f", [], .var "z"⟩) rfl), (2, .call 1 []),
    (3, .ask (.submit "(f z)") rfl), (4, .ask (.submit "(f inf)") rfl), (5, .call 4 []),
    (6, .call 0 []), (7, .call 3 [])]

theorem observe_without_idle_overshadowed :
    (start {}).observe (overshadowed.filter fun line => line.1 ∉ [1, 2, 4, 5]) =
      ((start {}).observe overshadowed).filter fun line => line.1 ∉ [1, 2, 4, 5] := by
  obtain ⟨hobserve, hnothing, hcall, -⟩ := observe_without_idle {}
  refine hobserve (fun label => label ∉ [1, 2, 4, 5]) overshadowed ?_
  have hread : (readForm "(f inf)").result = .ok (.call "f" [.number (.infinite false)]) := rfl
  exact ⟨trivial, hnothing _ _ _ (.exportDefinitionForm _), (hcall _ _ _ _).1, trivial,
    hnothing _ _ _ (.submit hread rfl), (hcall _ _ _ _).1, rfl, rfl, trivial⟩

end Client
end FourLane
