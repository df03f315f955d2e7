import FourLane.Proofs.Handles
import FourLane.Proofs.SessionMeaning
import FourLane.Proofs.WellFormed

/-!
# Every session is well formed

Whatever has been asked of a host, each of its sessions has well-formed routines, each entry
of its registry names a routine that is called by value with the arity of the entry, and each
handle ever issued names one that is called by address with the arity of the handle.

That a new routine is well formed is read off a run of it on zero vectors, which comes to its
end because the routine computes the meaning of its form.
-/
namespace FourLane

theorem Elementary.length_of_apply (e : Elementary) (xs : List Lane) (y : Lane)
    (h : e.apply xs = some y) : xs.length = e.arity := by
  unfold Elementary.apply at h
  split at h
  · rfl
  · rfl
  · rfl
  · rfl
  · rfl
  · cases h

theorem Word.eq_map_vector (args : List Word) (n : Nat)
    (h : args.map Word.ty = List.replicate n .f32x4) :
    ∃ vs : List Quad, vs.length = n ∧ args = vs.map .vector := by
  induction args generalizing n with
  | nil =>
    cases n with
    | zero => exact ⟨[], rfl, rfl⟩
    | succ n => cases h
  | cons w args ih =>
    cases n with
    | zero => cases h
    | succ n =>
      obtain ⟨hw, hargs⟩ := List.cons.inj h
      obtain ⟨vs, hlen, rfl⟩ := ih n hargs
      cases w with
      | vector v => exact ⟨v :: vs, by simp [hlen], rfl⟩
      | scalar x => cases hw
      | address slot => cases hw

namespace Image

theorem ty_of_run_elementary (image : Image) (h : image.Numbered) (e : Elementary)
    (args : List Word) (w : Word) (hrun : image.run e.number args = some w) :
    args.map Word.ty = e.signature.params ∧ e.signature.result = some w.ty := by
  rw [image.run_elementary_eq h, run, Elementary.ofNumber?_number] at hrun
  simp only [Option.bind_eq_bind, Option.bind_some, Option.bind_eq_some_iff] at hrun
  obtain ⟨xs, hxs, y, hy, heq⟩ := hrun
  cases heq
  rw [(Word.mapM_scalar?_eq_some_iff args xs).mp hxs]
  refine ⟨?_, rfl⟩
  rw [Elementary.signature, ← e.length_of_apply xs y hy]
  simp [Function.comp_def, Word.ty]

theorem ty_of_run (image : Image) (h : image.Numbered) (r : Routine) (hr : r ∈ image)
    (args : List Word) (w : Word) (hrun : image.run r.number args = some w) :
    args.map Word.ty = r.signature.params := by
  obtain ⟨newer, older, rfl⟩ := List.append_of_mem hr
  rw [run_append newer (r :: older) h r.number (Nat.lt_succ_self _), run_cons_self] at hrun
  obtain ⟨values, hvalues, -⟩ := Option.bind_eq_some_iff.mp hrun
  exact r.ty_of_values _ [] args values hvalues

end Image

namespace Session

/-- Behind every entry of the registry, shadowed or not, is a routine that is called by value
and takes as many vectors as the entry says. -/
structure WellFormed (s : Session) : Prop where
  image : s.image.WellFormed
  registry : ∀ name entry, (name, entry) ∈ s.registry →
    ∃ r ∈ s.image, r.number = entry.number ∧ r.convention = .byValue ∧ r.arity = entry.arity

theorem WellFormed.lookup {s : Session} (h : s.WellFormed) (name : String) (entry : Entry)
    (hentry : s.registry.lookup name = some entry) :
    ∃ r ∈ s.image, r.convention = .byValue ∧ r.number = entry.number ∧
      r.signature = Convention.byValue.signature entry.arity := by
  obtain ⟨r, hr, hnumber, hconvention, harity⟩ := h.registry name entry (mem_of_lookup hentry)
  exact ⟨r, hr, hconvention, hnumber, by rw [Routine.signature, hconvention, harity]⟩

theorem WellFormed.mayCall {s : Session} (h : s.WellFormed) (i : Import)
    (hi : s.registry.Offers i) : Routine.MayCall s.image i := by
  rcases hi with ⟨e, rfl⟩ | ⟨name, entry, hentry, -, rfl⟩
  · exact .inl ⟨e, rfl⟩
  · obtain ⟨r, hr, hconvention, hnumber, hsignature⟩ := h.lookup name entry hentry
    exact .inr ⟨r, hr, hconvention, by rw [hnumber, hsignature]⟩

variable {s : Session} {lexicon : Lexicon}

theorem Interprets.honest (h : s.Interprets lexicon) (hs : s.WellFormed) (imports : Array Import)
    (himports : ∀ i ∈ imports, s.registry.Offers i) : Honest s.image.run imports := by
  intro i hi args w hrun
  rcases himports i hi with ⟨e, rfl⟩ | ⟨name, entry, hentry, -, rfl⟩
  · exact s.image.ty_of_run_elementary h.numbered e args w hrun
  · obtain ⟨r, hr, -, hnumber, hsignature⟩ := hs.lookup name entry hentry
    rw [← hnumber] at hrun
    have hargs := s.image.ty_of_run h.numbered r hr args w hrun
    rw [hsignature] at hargs
    refine ⟨hargs, ?_⟩
    -- The arguments are vectors, so the call is one that the lexicon gives a value to.
    obtain ⟨vs, hlen, rfl⟩ := Word.eq_map_vector args entry.arity hargs
    have hknown : lexicon.known name = some vs.length := by
      rw [← h.known, Registry.known, hentry, hlen]
      rfl
    have hsome := lexicon.definedValue?_isSome h.total name vs hknown
    obtain ⟨v, hv⟩ := Option.isSome_iff_exists.mp hsome
    obtain ⟨entry', hentry', hrun'⟩ := h.realizes.defined name vs v hv
    obtain rfl : entry = entry' := by
      have hlookup := ((s.registry.resolve?_eq_some_iff name vs.length entry').mp hentry').1
      exact Option.some.inj (hentry.symm.trans hlookup)
    rw [← hnumber, hrun] at hrun'
    obtain rfl := Option.some.inj hrun'
    rfl

theorem Interprets.wellFormed_compile (h : s.Interprets lexicon) (hs : s.WellFormed)
    {convention : Convention} {params : List String} {body : Form} {r : Routine} {log : List Event}
    (hr : Routine.compile s.registry s.next convention params body = (.ok r, log)) :
    r.WellFormed s.image := by
  have hrun := hr
  have hoffers := Routine.offers_of_compile _ _ _ _ _ hr
  obtain ⟨haccept, result, d, hd, rfl, -⟩ := Routine.compile_eq_ok _ _ _ _ _ hr
  have hsteps := Lowering.proceeds_form (Routine.scope s.registry convention params) body
    (Routine.start convention params.length)
  rw [hd] at hsteps
  refine ⟨h.next, fun i hi => hs.mayCall i (hoffers i hi), ?_, ?_⟩
  · -- The types are those of the values of a run on zeros.
    let zeros := List.replicate params.length Quad.zero
    have hzeros : zeros.length = params.length := List.length_replicate
    rw [h.known] at haccept
    obtain ⟨q, hq⟩ := exists_meaning lexicon h.total (params.zip zeros) body haccept.2.2
    obtain ⟨v, values, hexit, hvalues, hresult, -⟩ :=
      Routine.values_of_compile hrun h.realizes zeros hzeros .zero q hq
    refine ⟨values.toList.map Word.ty, v, ?_, Values.ty_getElem? hresult, ?_⟩
    · exact Routine.typed_of_values _ (h.honest hs _ hoffers) _ values hvalues
    · cases convention with
      | byValue => exact hexit
      | byAddress => exact hexit
  · obtain ⟨added, hcode, hadded⟩ := Draft.code_of_steps hsteps
    refine ⟨added, ?_, hadded⟩
    cases convention with
    | byValue => exact hcode
    | byAddress => exact hcode

theorem WellFormed.install (hs : s.WellFormed) (name : String) (r : Routine)
    (hr : r.WellFormed s.image) : (s.install name r).WellFormed where
  image := ⟨hr, hs.image⟩
  registry := by
    intro name' entry hentry
    obtain ⟨callee, hcallee, hfields⟩ := hs.registry name' entry hentry
    exact ⟨callee, List.mem_cons_of_mem r hcallee, hfields⟩

theorem WellFormed.compile (hs : s.WellFormed) (h : s.Interprets lexicon)
    (convention : Convention) (name : String) (params : List String) (body : Form) :
    (s.compile convention name params body).session.WellFormed := by
  rcases s.compile_cases convention name params body with ⟨e, log, -, heq⟩ | ⟨r, log, hr, heq⟩
  · rw [heq]
    exact hs
  · rw [heq]
    exact hs.install name r (h.wellFormed_compile hs hr)

theorem WellFormed.define (hs : s.WellFormed) (h : s.Interprets lexicon) (d : Definition) :
    (s.define d).session.WellFormed := by
  rw [Session.define]
  rcases s.compile_cases .byValue d.name d.params d.body with ⟨e, log, -, heq⟩ | ⟨r, log, hr, heq⟩
  · rw [heq]
    exact hs
  · rw [heq]
    have hinstall := hs.install d.name r (h.wellFormed_compile hs hr)
    refine ⟨hinstall.image, fun name entry hentry => ?_⟩
    rcases List.mem_cons.mp hentry with heq' | hold
    · cases heq'
      obtain ⟨-, hconvention, harity⟩ := Routine.fields_of_compile _ _ _ _ _ hr
      exact ⟨r, List.mem_cons_self, rfl, hconvention, harity⟩
    · exact hinstall.registry name entry hold

/-- A session that came about by builds is well formed and interprets a lexicon. -/
theorem Reachable.wellFormed (h : s.Reachable) :
    s.WellFormed ∧ ∃ lexicon, s.Interprets lexicon := by
  obtain ⟨settings, builds, rfl⟩ := h
  refine after_induction (P := fun s => s.WellFormed ∧ ∃ lexicon, s.Interprets lexicon) ?_ _ builds
    ⟨⟨trivial, by simp⟩, [], interprets_new settings⟩
  rintro s b ⟨hs, lexicon, h⟩
  refine ⟨?_, lexicon.build b, h.build b⟩
  cases b with
  | define d => exact hs.define h d
  | exportDefinition d => exact hs.compile h .byAddress d.name d.params d.body
  | exportExpression body params => exact hs.compile h .byAddress _ params body

theorem Reachable.next_eq (h : s.Reachable) : s.next = s.image.next := by
  obtain ⟨-, lexicon, hlexicon⟩ := h.wellFormed
  exact hlexicon.next

theorem Reachable.routine_lt_next (h : s.Reachable) {r : Routine} (hr : r ∈ s.image) :
    5 ≤ r.number ∧ r.number < s.next := by
  rw [h.next_eq]
  exact s.image.number_lt_next h.wellFormed.1.image.numbered r hr

end Session

namespace Host

/-- In every run of a host, all sessions are well formed at all times, and every handle is
served from the moment it is issued. -/
theorem wellFormed_after (host : Host) (hhost : host.Reachable) :
    (∀ epoch s, host.sessionAt? epoch = some s → s.WellFormed) ∧
      ∀ request handle s, host.Issues request handle s → ∀ later,
        ∃ s', (host.after (request :: later)).sessionAt? host.epoch = some s' ∧
          s'.Serves handle := by
  refine ⟨fun epoch s hs => (hhost.session epoch s hs).wellFormed.1, ?_⟩
  intro request handle s hissues later
  obtain ⟨s', hs', hgrows⟩ := hissues.grows_after later
  exact ⟨s', hs', hissues.serves.1.grows hgrows⟩

def squared : Host :=
  (start {}).after [.defineForm ⟨"sq", ["x"], .call "*" [.var "x", .var "x"]⟩]

theorem reachable_squared : squared.Reachable := ⟨_, _, rfl⟩

def squareOf : Request := .exportExpressionForm (.call "sq" [.var "y"]) ["y"]

def shadowed : List Request :=
  [.defineForm ⟨"sq", ["x", "y"], .call "+" [.var "x", .var "y"]⟩, .reset]

theorem wellFormed_after_shadowed :
    squared.session.WellFormed ∧
      ∃ s', (squared.after (squareOf :: shadowed)).sessionAt? 0 = some s' ∧ s'.Serves ⟨6, 1⟩ := by
  have h := squared.wellFormed_after reachable_squared
  exact ⟨h.1 0 _ rfl, h.2 squareOf ⟨6, 1⟩ _ (.exportExpressionForm rfl) shadowed⟩

end Host
end FourLane
