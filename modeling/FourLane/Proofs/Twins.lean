import FourLane.Proofs.Builds
import FourLane.Proofs.Permanence
import FourLane.Proofs.Renumbering
import FourLane.Proofs.Resolution

/-!
# Sessions that differ in numbers only

Two sessions are twins if the names of both mean the same under a renumbering, whatever else the
first has compiled. The same request does the same to both: it fails with the same fault or gives
handles that answer alike, logs the same and lists the same routines, up to their numbers. What
the first session compiles alone, without registering it, leaves them twins under another
renumbering.
-/
namespace FourLane

theorem Image.run_eq_none (image : Image) (h : image.Numbered) (n : Nat) (hn : image.next ≤ n)
    (args : List Word) : image.run n args = none := by
  induction image with
  | nil =>
    have hnumber : Elementary.ofNumber? n = none := by
      change 5 ≤ n at hn
      obtain ⟨k, rfl⟩ := Nat.exists_eq_add_of_le' hn
      rfl
    rw [run, hnumber]
    rfl
  | cons r older ih =>
    change r.number + 1 ≤ n at hn
    have hr : r.number = next older := h.1
    have hne : n ≠ r.number := by omega
    rw [run, if_neg hne]
    exact ih h.2 (by omega)

/-- A listed routine without its number and those of its imports. -/
def Listed.anonymous (l : Listed) : Listed := { l with routine := l.routine.renumber fun _ => 0 }

namespace Session

theorem Reachable.numbered {s : Session} (h : s.Reachable) : s.image.Numbered :=
  h.wellFormed.1.image.numbered

theorem Reachable.number_lt_next {s : Session} (h : s.Reachable) (name : String) (entry : Entry)
    (hentry : s.registry.lookup name = some entry) : entry.number < s.next := by
  obtain ⟨r, hr, -, hnumber, -⟩ := h.wellFormed.1.lookup name entry hentry
  rw [← hnumber]
  exact (h.routine_lt_next hr).2

/-- Handles of two sessions that cannot be told apart by calling them. -/
structure Alike (s s' : Session) (handle handle' : Handle) : Prop where
  arity : handle.arity = handle'.arity
  serves : s.Serves handle
  serves' : s'.Serves handle'
  enter : ∀ args, s.enter handle args = s'.enter handle' args

theorem Alike.call {s s' : Session} {handle handle' : Handle} (h : Alike s s' handle handle')
    (args : List Quad) : s.call handle args = s'.call handle' args := by
  rw [Session.call, Session.call, h.arity, h.enter]

theorem Alike.grows {s s' t t' : Session} {handle handle' : Handle}
    (h : Alike s s' handle handle') (ht : s.Grows t) (ht' : s'.Grows t') (hr : t.Reachable)
    (hr' : t'.Reachable) : Alike t t' handle handle' where
  arity := h.arity
  serves := h.serves.grows ht
  serves' := h.serves'.grows ht'
  enter args := by
    rw [ht.enter hr.numbered handle h.serves, ht'.enter hr'.numbered handle' h.serves', h.enter]

/-- The names of both sessions mean the same, if the numbers of the second are renumbered. -/
structure Twin (σ : Nat → Nat) (s s' : Session) : Prop where
  reachable : s.Reachable
  reachable' : s'.Reachable
  settings : s.settings = s'.settings
  renumbering : Renumbering σ
  registry : ∀ name, s.registry.lookup name = (s'.registry.lookup name).map (Entry.renumber σ)
  next : ∀ k, σ (s'.next + k) = s.next + k
  run : ∀ n args, s.image.run (σ n) args = s'.image.run n args

variable {σ : Nat → Nat} {s s' : Session}

theorem twin_new (settings : Settings) : Twin id { settings } { settings } where
  reachable := ⟨settings, .refl _⟩
  reachable' := ⟨settings, .refl _⟩
  settings := rfl
  renumbering := ⟨Function.injective_id, fun _ _ => rfl⟩
  registry _ := rfl
  next _ := rfl
  run _ _ := rfl

namespace Twin

theorem arity?_eq (h : Twin σ s s') (name : String) : s.arity? name = s'.arity? name := by
  rw [arity?, arity?, h.registry]
  cases s'.registry.lookup name <;> rfl

/-- Numbers in use go to numbers in use: those from the next on are taken by what is to come. -/
theorem lt_next (h : Twin σ s s') (n : Nat) (hn : n < s'.next) : σ n < s.next := by
  by_contra hge
  have hk := h.next (σ n - s.next)
  have heq : s.next + (σ n - s.next) = σ n := by omega
  have hsame := h.renumbering.injective (hk.trans heq)
  omega

/-- The first session may grow on its own as long as it registers nothing. -/
theorem grows_left (h : Twin σ s s') {t : Session} (hgrows : s.Grows t)
    (hregistry : t.registry = s.registry) (hsettings : t.settings = s.settings) :
    ∃ τ, Twin τ t s' := by
  have ht := h.reachable.grows hgrows
  obtain ⟨newer, himage⟩ := hgrows.image
  have hnumbered := ht.numbered
  rw [himage] at hnumbered
  obtain ⟨-, hle⟩ := Image.numbered_append newer s.image hnumbered
  have hfive := s'.image.five_le_next h.reachable'.numbered
  have hnext := h.reachable.next_eq
  have hnext' := h.reachable'.next_eq
  have hnextt := ht.next_eq
  let τ (n : Nat) : Nat :=
    if n < s'.next then σ n else t.next + (n - s'.next)
  have hold (n : Nat) (hn : n < s'.next) : τ n = σ n := if_pos hn
  have hnew (k : Nat) : τ (s'.next + k) = t.next + k := by
    simp only [τ]
    rw [if_neg (by omega)]
    omega
  rw [← himage] at hle
  refine ⟨τ, ht, h.reachable', hsettings.trans h.settings, ⟨?_, ?_⟩, ?_, hnew, ?_⟩
  · intro m n heq
    have hm := h.lt_next m
    have hn := h.lt_next n
    simp only [τ] at heq
    split_ifs at heq with hm' hn' hn'
    · exact h.renumbering.injective heq
    · have := hm hm'
      omega
    · have := hn hn'
      omega
    · omega
  · intro n hn
    rw [hold n (by omega), h.renumbering.elementary n hn]
  · intro name
    rw [hregistry, h.registry]
    cases hentry : s'.registry.lookup name with
    | none => rfl
    | some entry =>
      have hlt := h.reachable'.number_lt_next name entry hentry
      simp only [Option.map_some, Entry.renumber, hold entry.number hlt]
  · intro n args
    by_cases hn : n < s'.next
    · have hlt := h.lt_next n hn
      rw [hnext] at hlt
      rw [hold n hn, himage, Image.run_append newer s.image hnumbered _ hlt, h.run]
    · have hk := hnew (n - s'.next)
      have heq : s'.next + (n - s'.next) = n := by omega
      rw [heq] at hk
      rw [hk, Image.run_eq_none _ ht.numbered _ (by omega),
        Image.run_eq_none _ h.reachable'.numbered _ (by omega)]

/-! ### One build -/

theorem extend (h : Twin σ s s') (b : Build) (r : Routine)
    (hr : (s.extend b (r.renumber σ)).Reachable) (hr' : (s'.extend b r).Reachable) :
    Twin σ (s.extend b (r.renumber σ)) (s'.extend b r) where
  reachable := hr
  reachable' := hr'
  settings := h.settings
  renumbering := h.renumbering
  registry name := by
    change (b.entries (σ r.number) ++ s.registry).lookup name =
      ((b.entries r.number ++ s'.registry).lookup name).map (Entry.renumber σ)
    rw [List.lookup_append, List.lookup_append, h.registry, Build.entries, Build.entries]
    cases b.convention with
    | byAddress => rfl
    | byValue =>
      simp only [List.lookup_cons, List.lookup_nil]
      cases name == b.name <;> rfl
  next k := by
    change σ (s'.next + 1 + k) = s.next + 1 + k
    rw [Nat.add_assoc, h.next, Nat.add_assoc]
  run n args := by
    change Image.run (r.renumber σ :: s.image) (σ n) args = Image.run (r :: s'.image) n args
    rw [Image.run, Image.run]
    by_cases hn : n = r.number
    · have heq : σ n = (r.renumber σ).number := congrArg σ hn
      rw [if_pos hn, if_pos heq, Routine.apply_renumber h.run]
    · have hne : σ n ≠ (r.renumber σ).number := fun heq => hn (h.renumbering.injective heq)
      rw [if_neg hn, if_neg hne, h.run]

/-- A build fails in both sessions with the same fault, or adds the same routine to both, up to
its numbers. -/
theorem attempt_cases (h : Twin σ s s') (b : Build) :
    (∃ e log, s.attempt b = ⟨.error e, s, log⟩ ∧ s'.attempt b = ⟨.error e, s', log⟩ ∧
        s.build b = s ∧ s'.build b = s') ∨
      ∃ r log, r.convention = b.convention ∧ r.arity = b.params.length ∧
        s.attempt b =
          ⟨.ok ⟨σ r.number, b.params.length⟩, s.install b.name (r.renumber σ), log⟩ ∧
        s'.attempt b = ⟨.ok ⟨r.number, b.params.length⟩, s'.install b.name r, log⟩ ∧
        s.build b = s.extend b (r.renumber σ) ∧ s'.build b = s'.extend b r := by
  have hcompile := Routine.compile_renumber h.renumbering s'.registry s'.next b.convention
    b.params b.body
  have hnext := h.next 0
  have hagree : s.registry.AgreeOn (s'.registry.renumber σ) b.body :=
    Registry.agreeOn_of_lookup fun head _ => by rw [h.registry, Registry.lookup_renumber]
  rw [Nat.add_zero, Nat.add_zero] at hnext
  rw [hnext, ← Routine.compile_congr _ _ _ _ hagree] at hcompile
  rcases s'.build_cases b with ⟨e, log, hr', hs', hbuild'⟩ | ⟨r, log, hr', hs', hbuild'⟩
  · rw [hr'] at hcompile
    rcases s.build_cases b with ⟨e₁, log₁, hr, hs, hbuild⟩ | ⟨r₁, log₁, hr, -⟩
    · cases hr.symm.trans hcompile
      exact .inl ⟨e, log, hs, hs', hbuild, hbuild'⟩
    · cases hr.symm.trans hcompile
  · rw [hr'] at hcompile
    obtain ⟨-, hconvention, harity⟩ := Routine.fields_of_compile _ _ _ _ _ hr'
    rcases s.build_cases b with ⟨e₁, log₁, hr, -⟩ | ⟨r₁, log₁, hr, hs, hbuild⟩
    · cases hr.symm.trans hcompile
    · cases hr.symm.trans hcompile
      exact .inr ⟨r, _, hconvention, harity, hs, hs', hbuild, hbuild'⟩

end Twin

/-- Two sessions have grown alike. -/
structure GrowAlike (σ : Nat → Nat) (s s' t t' : Session) : Prop where
  twin : Twin σ t t'
  grows : s.Grows t
  grows' : s'.Grows t'
  listing : ∃ added added', t.listing = s.listing ++ added ∧ t'.listing = s'.listing ++ added' ∧
    added.map Listed.anonymous = added'.map Listed.anonymous

theorem Twin.growAlike (h : Twin σ s s') : GrowAlike σ s s' s s' :=
  ⟨h, .refl s, .refl s', [], [], (List.append_nil _).symm, (List.append_nil _).symm, rfl⟩

theorem GrowAlike.trans {t t' u u' : Session} (h : GrowAlike σ s s' t t')
    (h' : GrowAlike σ t t' u u') : GrowAlike σ s s' u u' := by
  obtain ⟨added, added', hlisting, hlisting', hsame⟩ := h.listing
  obtain ⟨more, more', hmore, hmore', hsame'⟩ := h'.listing
  refine ⟨h'.twin, h.grows.trans h'.grows, h.grows'.trans h'.grows', added ++ more,
    added' ++ more', ?_, ?_, ?_⟩
  · rw [hmore, hlisting, List.append_assoc]
  · rw [hmore', hlisting', List.append_assoc]
  · rw [List.map_append, List.map_append, hsame, hsame']

namespace Twin

theorem growAlike_build (h : Twin σ s s') (b : Build) :
    GrowAlike σ s s' (s.build b) (s'.build b) := by
  have hgrows : s.Grows (s.build b) := ⟨[b], rfl⟩
  have hgrows' : s'.Grows (s'.build b) := ⟨[b], rfl⟩
  rcases h.attempt_cases b with ⟨e, log, -, -, hbuild, hbuild'⟩ |
    ⟨r, log, -, -, -, -, hbuild, hbuild'⟩
  · rw [hbuild, hbuild']
    exact h.growAlike
  · have hr := h.reachable.grows hgrows
    have hr' := h.reachable'.grows hgrows'
    rw [hbuild] at hr hgrows ⊢
    rw [hbuild'] at hr' hgrows' ⊢
    refine ⟨h.extend b r hr hr', hgrows, hgrows', _, _, s.listing_extend b _,
      s'.listing_extend b r, ?_⟩
    rw [h.settings]
    split_ifs
    · simp [Listed.anonymous, Routine.renumber_renumber, Function.comp_def]
    · rfl

end Twin

/-- Results of the same kind, with values that are related. -/
inductive SameResult {α : Type} (R : α → α → Prop) :
    Except CompileFault α → Except CompileFault α → Prop
  | error (e : CompileFault) : SameResult R (.error e) (.error e)
  | ok {a a' : α} (h : R a a') : SameResult R (.ok a) (.ok a')

/-- The outcomes of the same request on two sessions. -/
structure SameOutcome {α : Type} (σ : Nat → Nat) (s s' : Session)
    (R : Session → Session → α → α → Prop) (o o' : Outcome α) : Prop where
  grow : GrowAlike σ s s' o.session o'.session
  log : o.log = o'.log
  result : SameResult (R o.session o'.session) o.result o'.result

namespace Twin

theorem exported (h : Twin σ s s') (b : Build) (hconvention : b.convention = .byAddress)
    (hsession : ∀ s : Session, (s.attempt b).session = s.build b) :
    SameOutcome σ s s' Alike (s.attempt b) (s'.attempt b) := by
  have hgrow := h.growAlike_build b
  rw [← hsession, ← hsession] at hgrow
  rcases h.attempt_cases b with ⟨e, log, hs, hs', -, -⟩ |
    ⟨r, log, hr, harity, hs, hs', -, -⟩
  · rw [hs, hs'] at hgrow ⊢
    exact ⟨hgrow, rfl, .error e⟩
  · rw [hs, hs'] at hgrow ⊢
    refine ⟨hgrow, rfl, .ok ⟨rfl, ?_, ?_, fun args => ?_⟩⟩
    · exact ⟨r.renumber σ, List.mem_cons_self, rfl, hr.trans hconvention, harity⟩
    · exact ⟨r, List.mem_cons_self, rfl, hr.trans hconvention, harity⟩
    · have henter : Image.enter (r.renumber σ :: s.image) (σ r.number) args =
          Image.enter (r :: s'.image) r.number args := by
        change Image.enter (r.renumber σ :: s.image) (r.renumber σ).number args = _
        rw [Image.enter_cons_self, Image.enter_cons_self, Routine.enter_renumber h.run]
      simp only [enter]
      split_ifs
      · exact henter
      · rfl

theorem define (h : Twin σ s s') (d : Definition) :
    SameOutcome σ s s' (fun _ _ _ _ => True) (s.define d) (s'.define d) := by
  have hgrow := h.growAlike_build (.define d)
  have harity := h.arity?_eq d.name
  rcases h.attempt_cases (.define d) with ⟨e, log, hs, hs', -, -⟩ |
    ⟨r, log, -, -, hs, hs', -, -⟩
  · change s.compile .byValue d.name d.params d.body = _ at hs
    change s'.compile .byValue d.name d.params d.body = _ at hs'
    refine ⟨hgrow, ?_, ?_⟩
    · rw [Session.define, Session.define, hs, hs']
    · rw [Session.define, Session.define, hs, hs']
      exact .error e
  · change s.compile .byValue d.name d.params d.body = _ at hs
    change s'.compile .byValue d.name d.params d.body = _ at hs'
    refine ⟨hgrow, ?_, ?_⟩
    · rw [Session.define, Session.define, hs, hs']
      simp only [harity]
    · rw [Session.define, Session.define, hs, hs']
      exact .ok trivial

theorem exportDefinition (h : Twin σ s s') (d : Definition) :
    SameOutcome σ s s' Alike (s.exportDefinition d) (s'.exportDefinition d) :=
  h.exported (.exportDefinition d) rfl fun _ => rfl

theorem exportExpression (h : Twin σ s s') (body : Form) (params : List String) :
    SameOutcome σ s s' Alike (s.exportExpression body params) (s'.exportExpression body params) :=
  h.exported (.exportExpression body params) rfl fun _ => rfl

end Twin

/-- What two sessions answer to a submitted form: a definition, or handles that are alike. -/
inductive AlikeForm (s s' : Session) : Option Handle → Option Handle → Prop
  | defined : AlikeForm s s' none none
  | called {handle handle' : Handle} (h : Alike s s' handle handle') :
    AlikeForm s s' (some handle) (some handle')

theorem AlikeForm.grows {t t' : Session} {handle handle' : Option Handle}
    (h : AlikeForm s s' handle handle') (ht : GrowAlike σ s s' t t') :
    AlikeForm t t' handle handle' := by
  cases h with
  | defined => exact .defined
  | called h =>
    exact .called (h.grows ht.grows ht.grows' ht.twin.reachable ht.twin.reachable')

theorem SameResult.map {α β : Type} {R : α → α → Prop} {Q : β → β → Prop}
    {result result' : Except CompileFault α} (h : SameResult R result result') (f : α → β)
    (hf : ∀ a a', R a a' → Q (f a) (f a')) : SameResult Q (result.map f) (result'.map f) := by
  cases h with
  | error e => exact .error e
  | ok h => exact .ok (hf _ _ h)

namespace Twin

theorem submitForm (h : Twin σ s s') (form : Form) :
    SameOutcome σ s s' AlikeForm (s.submitForm form) (s'.submitForm form) := by
  rw [Session.submitForm, Session.submitForm]
  cases form.definition? with
  | some d =>
    have hdefine := h.define d
    exact ⟨hdefine.grow, hdefine.log, hdefine.result.map _ fun _ _ _ => .defined⟩
  | none =>
    have hexport := h.exportExpression form []
    exact ⟨hexport.grow, congrArg (List.cons _) hexport.log,
      hexport.result.map _ fun _ _ halike => .called halike⟩

theorem withForm {α : Type} {R : Session → Session → α → α → Prop} (h : Twin σ s s')
    (text : String) (request request' : Form → Outcome α)
    (hrequest : ∀ form, SameOutcome σ s s' R (request form) (request' form)) :
    SameOutcome σ s s' R (s.withForm text request) (s'.withForm text request') := by
  simp only [Session.withForm]
  cases (readForm text).result with
  | error e => exact ⟨h.growAlike, rfl, .error _⟩
  | ok form =>
    exact ⟨(hrequest form).grow, congrArg (_ ++ ·) (hrequest form).log, (hrequest form).result⟩

theorem withDefinition {α : Type} {R : Session → Session → α → α → Prop} (h : Twin σ s s')
    (text : String) (request request' : Definition → Outcome α)
    (hrequest : ∀ d, SameOutcome σ s s' R (request d) (request' d)) :
    SameOutcome σ s s' R (s.withDefinition text request) (s'.withDefinition text request') := by
  refine h.withForm text _ _ fun form => ?_
  cases form.definition? with
  | some d => exact hrequest d
  | none => exact ⟨h.growAlike, rfl, .error _⟩

theorem submit (h : Twin σ s s') (text : String) :
    SameOutcome σ s s' AlikeForm (s.submit text) (s'.submit text) :=
  h.withForm text _ _ h.submitForm

end Twin

/-- The answers of the same batch on two sessions. -/
structure SameBatch (σ : Nat → Nat) (s s' : Session) (b b' : Batch) : Prop where
  grow : GrowAlike σ s s' b.session b'.session
  log : b.log = b'.log
  results : List.Forall₂ (SameResult (AlikeForm b.session b'.session)) b.results b'.results

theorem Twin.submitReadings (h : Twin σ s s') (rs : List Reading) :
    SameBatch σ s s' (s.submitReadings rs) (s'.submitReadings rs) := by
  induction rs generalizing s s' with
  | nil => exact ⟨h.growAlike, rfl, .nil⟩
  | cons r rs ih =>
    rw [Session.submitReadings, Session.submitReadings]
    cases r.result with
    | error e => exact ⟨h.growAlike, rfl, .cons (.error _) .nil⟩
    | ok form =>
      obtain ⟨hgrow, hlog, hresult⟩ := h.submitForm form
      simp only
      generalize hres : (s.submitForm form).result = result at hresult ⊢
      generalize hres' : (s'.submitForm form).result = result' at hresult ⊢
      cases hresult with
      | error e => exact ⟨hgrow, congrArg (_ ++ ·) hlog, .cons (.error e) .nil⟩
      | ok halike =>
        obtain ⟨hgrow₁, hlog₁, hresults⟩ := ih hgrow.twin
        refine ⟨hgrow.trans hgrow₁, ?_, .cons (.ok (halike.grows hgrow₁)) hresults⟩
        rw [hlog, hlog₁]

/-- A submitted form gives the same line and logs the same. -/
theorem report_eq {result result' : Except CompileFault (Option Handle)}
    (h : SameResult (AlikeForm s s') result result') (source : String) :
    s.report source result = s'.report source result' := by
  cases h with
  | error e => rfl
  | ok h =>
    cases h with
    | defined => rfl
    | called h => rw [report, report, h.call]

end Session
end FourLane
