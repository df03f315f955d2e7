import FourLane.Proofs.SessionSafety

/-!
# What one build does

All builds compile something under a name and a convention. One that fails leaves the session
as it was. One that succeeds adds its routine on top of the image, and a definition is also
registered. Every routine of a session was therefore compiled in an earlier state of it, of
which the routines below it are the image, and gives the meaning that its body had there.
-/
namespace FourLane

namespace Build

def name : Build → String
  | .define d => d.name
  | .exportDefinition d => d.name
  | .exportExpression _ _ => "externalexpr"

def convention : Build → Convention
  | .define _ => .byValue
  | .exportDefinition _ => .byAddress
  | .exportExpression _ _ => .byAddress

def params : Build → List String
  | .define d => d.params
  | .exportDefinition d => d.params
  | .exportExpression _ params => params

def body : Build → Form
  | .define d => d.body
  | .exportDefinition d => d.body
  | .exportExpression body _ => body

/-- What it adds to the registry if its routine has the given number. -/
def entries (b : Build) (number : Nat) : Registry :=
  match b.convention with
  | .byValue => [(b.name, ⟨number, b.params.length⟩)]
  | .byAddress => []

end Build

namespace Session

def attempt (s : Session) (b : Build) (backend : Backend := .plain) : Outcome Handle :=
  s.compile b.convention b.name b.params b.body backend

def extend (s : Session) (b : Build) (r : Routine) : Session :=
  { s.install b.name r with registry := b.entries r.number ++ s.registry }

theorem build_cases (s : Session) (b : Build) :
    (∃ e log,
        Routine.compile s.registry s.next b.convention b.params b.body = (.error e, log) ∧
          s.attempt b = ⟨.error e, s, log⟩ ∧ s.build b = s) ∨
      ∃ r log,
        Routine.compile s.registry s.next b.convention b.params b.body = (.ok r, log) ∧
          s.attempt b = ⟨.ok ⟨r.number, b.params.length⟩, s.install b.name r,
            log ++ [.compiled b.name b.convention b.params.length]⟩ ∧
          s.build b = s.extend b r := by
  rcases s.compile_cases b.convention b.name b.params b.body with ⟨e, log, hr, hs⟩ | ⟨r, log, hr, hs⟩
  · refine .inl ⟨e, log, hr, hs, ?_⟩
    cases b with
    | define d =>
      change s.compile .byValue d.name d.params d.body = _ at hs
      rw [build, define, hs]
    | exportDefinition d => exact congrArg Outcome.session hs
    | exportExpression body params => exact congrArg Outcome.session hs
  · refine .inr ⟨r, log, hr, hs, ?_⟩
    cases b with
    | define d =>
      change s.compile .byValue d.name d.params d.body = _ at hs
      rw [build, define, hs]
      rfl
    | exportDefinition d => exact congrArg Outcome.session hs
    | exportExpression body params => exact congrArg Outcome.session hs

theorem define_cases (s : Session) (d : Definition) :
    (∃ e log,
        Routine.compile s.registry s.next .byValue d.params d.body = (.error e, log) ∧
          s.define d = ⟨.error e, s, log⟩) ∨
      ∃ r log,
        Routine.compile s.registry s.next .byValue d.params d.body = (.ok r, log) ∧
          s.define d = ⟨.ok (), s.extend (.define d) r,
            if (s.arity? d.name).isSome then
              log ++ [.compiled d.name .byValue d.params.length] ++ [.shadowed d.name]
            else log ++ [.compiled d.name .byValue d.params.length]⟩ := by
  rw [define]
  rcases s.compile_cases .byValue d.name d.params d.body with ⟨e, log, hr, hs⟩ | ⟨r, log, hr, hs⟩
  · rw [hs]
    exact .inl ⟨e, log, hr, rfl⟩
  · rw [hs]
    exact .inr ⟨r, log, hr, rfl⟩

theorem listing_extend (s : Session) (b : Build) (r : Routine) :
    (s.extend b r).listing = s.listing ++ if s.settings.capture then [⟨b.name, r⟩] else [] := by
  change (if s.settings.capture then s.listing ++ [⟨b.name, r⟩] else s.listing) = _
  split_ifs
  · rfl
  · exact (List.append_nil _).symm

theorem Grows.settings {s t : Session} (h : s.Grows t) : t.settings = s.settings := by
  obtain ⟨builds, rfl⟩ := h
  refine after_induction (P := fun t => t.settings = s.settings) ?_ s builds rfl
  intro t b ht
  rcases t.build_cases b with ⟨e, log, -, -, heq⟩ | ⟨r, log, -, -, heq⟩
  · rwa [heq]
  · rw [heq]
    exact ht

theorem after_concat (s : Session) (builds : List Build) (b : Build) :
    s.after (builds ++ [b]) = (s.after builds).build b := s.after_append builds [b]

theorem exists_mem_image_build (s : Session) (b : Build)
    (h : Accepts s.registry.known b.params b.body) :
    ∃ r ∈ (s.build b).image, r.convention = b.convention ∧ r.arity = b.params.length := by
  rw [← Routine.faultOf_compile_eq_none_iff s.registry s.next b.convention] at h
  rcases s.build_cases b with ⟨e, log, hr, -⟩ | ⟨r, log, hr, -, heq⟩
  · rw [hr] at h
    cases h
  · rw [heq]
    exact ⟨r, List.mem_cons_self, (Routine.fields_of_compile _ _ _ _ _ hr).2⟩

theorem define_of_accepts (s : Session) (d : Definition)
    (h : Accepts s.registry.known d.params d.body) : (s.define d).result = .ok () := by
  rw [← Routine.faultOf_compile_eq_none_iff s.registry s.next .byValue] at h
  rw [define]
  rcases s.compile_cases .byValue d.name d.params d.body with ⟨e, log, hr, -⟩ | ⟨r, log, -, hs⟩
  · rw [hr] at h
    cases h
  · rw [hs]

/-- A routine of a session was compiled in another, which had the routines below it. -/
structure Origin (s : Session) (r : Routine) (s₀ : Session) : Prop where
  reachable : s₀.Reachable
  below : ∃ newer, s.image = newer ++ r :: s₀.image
  compiled : ∃ params body log,
    Routine.compile s₀.registry s₀.next r.convention params body = (.ok r, log)

theorem Origin.of_image_cons {s s' s₀ : Session} {r top : Routine} (h : s.Origin r s₀)
    (himage : s'.image = top :: s.image) : s'.Origin r s₀ := by
  obtain ⟨newer, hbelow⟩ := h.below
  exact ⟨h.reachable, ⟨top :: newer, by rw [himage, hbelow]; rfl⟩, h.compiled⟩

theorem Reachable.exists_origin {s : Session} (h : s.Reachable) :
    ∀ r ∈ s.image, ∃ s₀, s.Origin r s₀ := by
  obtain ⟨settings, builds, rfl⟩ := h
  refine (after_induction (P := fun s => s.Reachable ∧ ∀ r ∈ s.image, ∃ s₀, s.Origin r s₀)
    ?_ _ builds ⟨⟨settings, .refl _⟩, by simp⟩).2
  rintro s b ⟨hs, horigin⟩
  refine ⟨hs.grows ⟨[b], rfl⟩, ?_⟩
  rcases s.build_cases b with ⟨e, log, -, -, heq⟩ | ⟨top, log, htop, -, heq⟩
  · rw [heq]
    exact horigin
  · rw [heq]
    intro r hr
    rcases List.mem_cons.mp hr with rfl | hold
    · have hconvention := (Routine.fields_of_compile _ _ _ _ _ htop).2.1
      exact ⟨s, hs, ⟨[], rfl⟩, b.params, b.body, log, by rwa [hconvention]⟩
    · obtain ⟨s₀, hs₀⟩ := horigin r hold
      exact ⟨s₀, hs₀.of_image_cons rfl⟩

def applied? (s : Session) (r : Routine) (args : List Quad) : Option Quad :=
  match r.convention with
  | .byValue => (s.image.run r.number (args.map .vector)).bind Word.vector?
  | .byAddress => s.enter ⟨r.number, r.arity⟩ args

variable {s : Session} {r : Routine}

theorem length_of_applied? (hs : s.Reachable) (hr : r ∈ s.image) (args : List Quad) (q : Quad)
    (h : s.applied? r args = some q) : args.length = r.arity := by
  rw [applied?] at h
  cases hconvention : r.convention with
  | byValue =>
    rw [hconvention] at h
    obtain ⟨w, hw, -⟩ := Option.bind_eq_some_iff.mp h
    have hty := s.image.ty_of_run hs.wellFormed.1.image.numbered r hr _ w hw
    rw [Routine.signature, hconvention] at hty
    simpa [Convention.signature] using congrArg List.length hty
  | byAddress =>
    rw [hconvention] at h
    by_contra hne
    rw [enter, if_neg hne] at h
    cases h

/-- A routine gives a vector for as many vectors as it has parameters: the meaning of a body,
with what the names meant when it was compiled. -/
theorem Reachable.applied_eq_meaning (hs : s.Reachable) (hr : r ∈ s.image) :
    ∃ builds params body, ∀ args, args.length = r.arity →
      ∃ q, Form.meaning (Lexicon.after [] builds) (List.zip params args) body = some q ∧
        s.applied? r args = some q := by
  obtain ⟨s₀, ⟨settings, builds, rfl⟩, ⟨newer, himage⟩, params, body, log, hcompile⟩ :=
    hs.exists_origin r hr
  have hnumbered := hs.wellFormed.1.image.numbered
  rw [himage] at hnumbered
  have harity := (Routine.fields_of_compile _ _ _ _ _ hcompile).2.2
  have hlexicon := (interprets_new settings).after builds
  refine ⟨builds, params, body, ?_⟩
  intro args hargs
  simp only [applied?]
  generalize r.convention = convention at hcompile ⊢
  cases convention with
  | byValue =>
    obtain ⟨q, hq, hrun⟩ := hlexicon.computes_compiled hcompile args (hargs.trans harity)
    have hnewer := Image.run_append newer _ hnumbered r.number (Nat.lt_succ_self _)
      (args.map .vector)
    exact ⟨q, hq, by rw [himage, hnewer, hrun]; rfl⟩
  | byAddress =>
    obtain ⟨q, hq, hrun⟩ := hlexicon.computes_compiled hcompile args (hargs.trans harity)
    have hnewer := Image.enter_append newer _ hnumbered r.number (Nat.lt_succ_self _) args
    exact ⟨q, hq, by rw [enter, if_pos hargs, himage, hnewer, hrun]⟩

end Session
end FourLane
