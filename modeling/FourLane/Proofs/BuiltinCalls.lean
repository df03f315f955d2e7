import FourLane.Proofs.CallTermination
import FourLane.Proofs.Inlining
import Mathlib

/-!
# Built-in calls and the registry

A registry has a say in the calls that are not built in, and in nothing else. Functions may be
defined under the names of built-in operations, but only for other numbers of arguments are they
ever called: a built-in call has its own meaning in every session, and no routine calls a function
that is registered under the name and with the number of parameters of a built-in operation.
-/
namespace FourLane

def builtinNames : List String := ["+", "-", "*", "/", "sqrt", "sin", "cos", "exp", "log", "pow"]

theorem IsBuiltin.pos {head : String} {count : Nat} (h : IsBuiltin head count) : 0 < count := by
  rcases h with ⟨-, h⟩ | ⟨-, h⟩ | ⟨-, h⟩ <;> omega

/-- A form calls built-in names only as built-in operations. -/
def Form.UsesBuiltins (f : Form) : Prop :=
  ∀ head args, Form.call head args ∈ f.nodes → head ∈ builtinNames → IsBuiltin head args.length

/-- The number that a call reaches is all that counts of an entry. -/
theorem Registry.agreeOn_of_number {registry registry' : Registry} {f : Form}
    (h : ∀ head args, Form.call head args ∈ f.nodes → ¬ IsBuiltin head args.length →
      (registry.resolve? head args.length).map Entry.number =
        (registry'.resolve? head args.length).map Entry.number) :
    registry.AgreeOn registry' f := by
  intro head args hcall
  by_cases hb : IsBuiltin head args.length
  · exact .inl hb
  · right
    have hnumber := h head args hcall hb
    cases hentry : registry.resolve? head args.length with
    | none =>
      rw [hentry] at hnumber
      exact (Option.map_eq_none_iff.mp hnumber.symm).symm
    | some entry =>
      rw [hentry] at hnumber
      obtain ⟨entry', hentry', hsame⟩ := Option.map_eq_some_iff.mp hnumber.symm
      have harity := ((registry.resolve?_eq_some_iff _ _ _).mp hentry).2
      have harity' := ((registry'.resolve?_eq_some_iff _ _ _).mp hentry').2
      obtain ⟨number, arity⟩ := entry
      obtain ⟨number', arity'⟩ := entry'
      obtain rfl : number' = number := hsame
      obtain rfl : arity' = arity := harity'.trans harity.symm
      exact hentry'.symm

/-! ### Definitions under built-in names -/

theorem Lexicon.lookup_after {lexicon : Lexicon} {ds : List Definition} {head : String}
    (h : ∀ d ∈ ds, d.name ≠ head) :
    (lexicon.after (ds.map .define)).lookup head = lexicon.lookup head := by
  induction ds generalizing lexicon with
  | nil => rfl
  | cons d ds ih =>
    rw [List.forall_mem_cons] at h
    exact (ih h.2).trans (lookup_define_of_ne h.1.symm)

namespace Session

variable {s t : Session}

theorem lookup_after {ds : List Definition} {head : String} (h : ∀ d ∈ ds, d.name ≠ head) :
    (s.after (ds.map .define)).registry.lookup head = s.registry.lookup head := by
  induction ds generalizing s with
  | nil => rfl
  | cons d ds ih =>
    rw [List.forall_mem_cons] at h
    refine (ih h.2 (s := (s.define d).session)).trans ?_
    rcases s.define_cases d with ⟨e, log, -, hd⟩ | ⟨r, log, -, hd⟩
    · rw [hd]
    · rw [hd]
      change List.lookup head ((d.name, _) :: s.registry) = _
      rw [List.lookup_cons, beq_false_of_ne h.1.symm]

/-- Calls that reach the same compile to the same code, whatever else the registries have. -/
theorem compile_eq_of_agreeOn {body : Form} (h : s.registry.AgreeOn t.registry body)
    (convention : Convention) (params : List String) :
    Routine.compile t.registry t.next convention params body =
      ((Routine.compile s.registry s.next convention params body).1.map fun r =>
          { r with number := t.next },
        (Routine.compile s.registry s.next convention params body).2) := by
  rw [← Routine.compile_congr _ _ _ _ h]
  exact Routine.compile_number _ _ _ _ _ _

theorem Reachable.same_after_builtins (hs : s.Reachable) {ds : List Definition}
    (hds : ∀ d ∈ ds, d.name ∈ builtinNames) {body : Form} (hbody : body.UsesBuiltins)
    (params : List String) :
    (∃ e, (s.exportExpression body params).result = .error e ∧
        ((s.after (ds.map .define)).exportExpression body params).result = .error e) ∨
      SameFunction params.length (s.exportExpression body params)
        ((s.after (ds.map .define)).exportExpression body params) := by
  obtain ⟨-, lexicon, hlexicon⟩ := hs.wellFormed
  have hlater := hlexicon.after (ds.map .define)
  have hother {head : String} (hhead : head ∉ builtinNames) : ∀ d ∈ ds, d.name ≠ head := by
    rintro d hd rfl
    exact hhead (hds d hd)
  have hsame (head : String) (args : List Form) (hcall : Form.call head args ∈ body.nodes) :
      IsBuiltin head args.length ∨ ∀ d ∈ ds, d.name ≠ head := by
    by_cases hhead : head ∈ builtinNames
    · exact .inl (hbody head args hcall hhead)
    · exact .inr (hother hhead)
  have hagree : s.registry.AgreeOn (s.after (ds.map .define)).registry body := by
    intro head args hcall
    refine (hsame head args hcall).imp_right fun hds => ?_
    rw [Registry.resolve?, Registry.resolve?, lookup_after hds]
  have hcompile := compile_eq_of_agreeOn hagree .byAddress params
  rcases s.compile_cases .byAddress "externalexpr" params body with ⟨e, log, hr, ho⟩ | ⟨r, log, hr, ho⟩
  · rw [hr] at hcompile
    refine .inl ⟨e, by rw [exportExpression, ho], ?_⟩
    rw [exportExpression, compile, hcompile]
    rfl
  · rw [hr] at hcompile
    have haccept := hlexicon.accepts_of_compile (congrArg Outcome.result ho)
    have haccept' : Accepts (lexicon.after (ds.map .define)).known params body := by
      rw [← hlater.known]
      exact (Routine.compile_eq_ok _ _ _ _ _ hcompile).1
    refine .inr (hlexicon.sameFunction hlater _ _ haccept haccept' fun args _ => ?_)
    apply meaning_congr
    intro head args hcall
    exact (hsame head args hcall).imp_right fun hds => (Lexicon.lookup_after hds).symm

/-- Compiled as an expression of the parameters, the form gives the vector. -/
def Gives (s : Session) (params : List String) (args : List Quad) (f : Form) (q : Quad) : Prop :=
  ∃ handle, (s.exportExpression f params).result = .ok handle ∧
    (s.exportExpression f params).session.enter handle args = some q

theorem Interprets.gives {lexicon : Lexicon} (h : s.Interprets lexicon) {params : List String}
    {f : Form} (haccept : Accepts lexicon.known params f) {args : List Quad}
    (hargs : args.length = params.length) {q : Quad}
    (hq : f.meaning lexicon (params.zip args) = some q) : s.Gives params args f q := by
  obtain ⟨handle, hresult, -, hvalue⟩ := h.exists_export "externalexpr" haccept
  obtain ⟨q', hq', henter⟩ := hvalue args hargs
  obtain rfl := Option.some.inj (hq.symm.trans hq')
  exact ⟨handle, hresult, henter⟩

theorem Reachable.builtin_gives (hs : s.Reachable) {head : String} {args : List Form}
    {params : List String} (hb : IsBuiltin head args.length)
    (hargs : ∀ f ∈ args, ∃ handle, (s.exportExpression f params).result = .ok handle)
    {xs : List Quad} (hxs : xs.length = params.length) :
    ∃ vs q, List.Forall₂ (s.Gives params xs) args vs ∧ builtinValue? head vs = some q ∧
      s.Gives params xs (.call head args) q := by
  obtain ⟨-, lexicon, hlexicon⟩ := hs.wellFormed
  have haccept (f : Form) (hf : f ∈ args) : Accepts lexicon.known params f := by
    obtain ⟨handle, hhandle⟩ := hargs f hf
    exact hlexicon.accepts_of_compile hhandle
  obtain ⟨vs, hvs, hlength⟩ := exists_meaningOfAll lexicon (params.zip xs) args fun f hf =>
    exists_meaning lexicon hlexicon.total _ f (haccept f hf).2.2
  rw [← hlength] at hb
  obtain ⟨q, hq⟩ := Option.isSome_iff_exists.mp ((builtinValue?_isSome_iff head vs).mpr hb)
  have hvalues := (meaningOfAll_eq_some_iff _ _ _ _).mp hvs
  refine ⟨vs, q, ?_, hq, ?_⟩
  · rw [List.forall₂_iff_zip] at hvalues ⊢
    refine ⟨hvalues.1, fun {f v} hmem => ?_⟩
    exact hlexicon.gives (haccept f (List.of_mem_zip hmem).1) hxs (hvalues.2 hmem)
  · obtain ⟨f, hf⟩ := List.exists_mem_of_length_pos (hlength ▸ hb.pos)
    have hself : (Form.call head args).fault? lexicon.known = none := by
      rw [Form.fault?, if_pos (.inl (hlength ▸ hb))]
    have hcall : Accepts lexicon.known params (.call head args) :=
      ⟨(haccept f hf).1, (haccept f hf).2.1,
        fault?_eq_none_of_args (fun g hg => (haccept g hg).2.2) hself⟩
    apply hlexicon.gives hcall hxs
    rw [Form.meaning, hvs, Option.bind_some, Lexicon.value?_of_isBuiltin hb, hq]

/-! ### Calls of registered functions -/

def NumbersDiffer (s : Session) : Prop :=
  ∀ p ∈ s.registry, ∀ q ∈ s.registry, p.2.number = q.2.number → p = q

/-- No routine imports what is registered like a built-in operation. -/
def SparesBuiltins (s : Session) : Prop :=
  ∀ r ∈ s.image, ∀ i ∈ r.imports, ∀ p ∈ s.registry, p.2.number = i.target →
    ¬ IsBuiltin p.1 p.2.arity

theorem Reachable.number_bounds (hs : s.Reachable) {p : String × Entry} (hp : p ∈ s.registry) :
    5 ≤ p.2.number ∧ p.2.number < s.next := by
  obtain ⟨r, hr, hnumber, -⟩ := hs.wellFormed.1.registry p.1 p.2 hp
  rw [← hnumber]
  exact hs.routine_lt_next hr

theorem Reachable.target_lt_next (hs : s.Reachable) {r : Routine} (hr : r ∈ s.image) {i : Import}
    (hi : i ∈ r.imports) : i.target < s.next := by
  exact (hs.wellFormed.1.image.descends r hr i hi).trans (hs.routine_lt_next hr).2

theorem mem_registry_extend {b : Build} {r : Routine} (hr : r.number = s.next)
    {p : String × Entry} (hp : p ∈ (s.extend b r).registry) :
    p = (b.name, ⟨s.next, b.params.length⟩) ∨ p ∈ s.registry := by
  change p ∈ b.entries r.number ++ s.registry at hp
  refine (List.mem_append.mp hp).imp_left fun hnew => ?_
  rw [Build.entries, hr] at hnew
  cases hconvention : b.convention with
  | byValue =>
    rw [hconvention] at hnew
    exact List.mem_singleton.mp hnew
  | byAddress =>
    rw [hconvention] at hnew
    cases hnew

theorem numbersDiffer_extend (hs : s.Reachable) (h : s.NumbersDiffer) {b : Build} {r : Routine}
    (hr : r.number = s.next) : (s.extend b r).NumbersDiffer := by
  intro p hp q hq heq
  rcases mem_registry_extend hr hp with rfl | hp
  · rcases mem_registry_extend hr hq with rfl | hq
    · rfl
    · have hlt := (hs.number_bounds hq).2
      change s.next = q.2.number at heq
      omega
  · rcases mem_registry_extend hr hq with rfl | hq
    · have hlt := (hs.number_bounds hp).2
      change p.2.number = s.next at heq
      omega
    · exact h p hp q hq heq

theorem sparesBuiltins_extend (hs : s.Reachable) (hdiffer : s.NumbersDiffer)
    (hspares : s.SparesBuiltins) {b : Build} {r : Routine} (hr : r.number = s.next)
    (hoffers : ∀ i ∈ r.imports, s.registry.Offers i) : (s.extend b r).SparesBuiltins := by
  have hnext := s.image.five_le_next hs.wellFormed.1.image.numbered
  rw [← hs.next_eq] at hnext
  intro r' hr' i hi p hp htarget
  rcases List.mem_cons.mp hr' with rfl | hold
  · rcases hoffers i hi with ⟨e, rfl⟩ | ⟨name, entry, hentry, hbuiltin, rfl⟩
    · -- An elementary function has a number below those of all routines.
      have hlt : e.number < 5 := Image.elementary_number_lt e
      change p.2.number = e.number at htarget
      rcases mem_registry_extend hr hp with rfl | hp
      · change s.next = e.number at htarget
        omega
      · have hle := (hs.number_bounds hp).1
        omega
    · have hmem : (name, entry) ∈ s.registry := mem_of_lookup hentry
      change p.2.number = entry.number at htarget
      rcases mem_registry_extend hr hp with rfl | hp
      · have hlt : entry.number < s.next := (hs.number_bounds hmem).2
        change s.next = entry.number at htarget
        omega
      · rw [hdiffer p hp _ hmem htarget]
        exact hbuiltin
  · rcases mem_registry_extend hr hp with rfl | hp
    · have hlt := hs.target_lt_next hold hi
      change s.next = i.target at htarget
      omega
    · exact hspares r' hold i hi p hp htarget

theorem Reachable.sparesBuiltins (hs : s.Reachable) : s.SparesBuiltins := by
  obtain ⟨settings, builds, rfl⟩ := hs
  refine (after_induction
    (P := fun s => s.Reachable ∧ s.NumbersDiffer ∧ s.SparesBuiltins) ?_ _ builds
    ⟨⟨settings, .refl _⟩, by simp [NumbersDiffer], by simp [SparesBuiltins]⟩).2.2
  rintro s b ⟨hs, hdiffer, hspares⟩
  refine ⟨hs.grows ⟨[b], rfl⟩, ?_⟩
  rcases s.build_cases b with ⟨e, log, -, -, heq⟩ | ⟨r, log, hr, -, heq⟩
  · rw [heq]
    exact ⟨hdiffer, hspares⟩
  · rw [heq]
    have hnumber := (Routine.fields_of_compile _ _ _ _ _ hr).1
    exact ⟨numbersDiffer_extend hs hdiffer hnumber, sparesBuiltins_extend hs hdiffer hspares hnumber
      (Routine.offers_of_compile _ _ _ _ _ hr)⟩

theorem not_callsNumber (hs : s.Reachable) {r : Routine} (hr : r ∈ s.image) {name : String}
    {entry : Entry} (hentry : (name, entry) ∈ s.registry) (hb : IsBuiltin name entry.arity) :
    ¬ CallsNumber r.code r.imports entry.number := by
  rintro ⟨callee, ns, i, -, hi, htarget⟩
  exact hs.sparesBuiltins r hr i (Array.mem_of_getElem? hi) _ hentry htarget.symm hb

theorem callsNumber_of_define {d : Definition} (hd : (s.define d).result = .ok ())
    (hb : ¬ IsBuiltin d.name d.arity) {convention : Convention} {params : List String} {body : Form}
    {r : Routine} {log : List Event}
    (hr : Routine.compile (s.define d).session.registry (s.define d).session.next convention
      params body = (.ok r, log)) {args : List Form} (hcall : Form.call d.name args ∈ body.nodes)
    (hargs : args.length = d.arity) : CallsNumber r.code r.imports s.next := by
  rcases s.define_cases d with ⟨e, log', -, heq⟩ | ⟨top, log', htop, heq⟩
  · rw [heq] at hd
    cases hd
  · obtain ⟨-, result, draft, hrun, rfl, -⟩ := Routine.compile_eq_ok _ _ _ _ _ hr
    rw [← hargs, ← Builtin.resolve?_isSome_iff, Option.not_isSome_iff_eq_none] at hb
    obtain ⟨entry, hentry, hcalls⟩ := Lowering.nodeCalls_form _ _ _ _ _ hrun _ hcall _ _ rfl hb
    have hlookup := ((Registry.resolve?_eq_some_iff _ _ _ _).mp hentry).1
    change (s.define d).session.registry.lookup d.name = some entry at hlookup
    rw [heq] at hlookup
    change List.lookup d.name ((d.name, ⟨top.number, d.params.length⟩) :: s.registry) = _ at hlookup
    rw [List.lookup_cons_self] at hlookup
    cases hlookup
    rwa [(Routine.fields_of_compile _ _ _ _ _ htop).1] at hcalls

theorem Reachable.sameFunction_selfCall (hs : s.Reachable) {d : Definition}
    (hd : (s.define d).result = .ok ()) (hb : ¬ IsBuiltin d.name d.arity) :
    SameFunction d.arity (s.exportDefinition d)
      ((s.define d).session.exportExpression d.selfCall d.params) := by
  obtain ⟨-, lexicon, hlexicon⟩ := hs.wellFormed
  have haccept := hlexicon.accepts_of_define hd
  apply hlexicon.sameFunction (hlexicon.define d) _ _ haccept (accepts_selfCall haccept)
  intro args hargs
  rw [Definition.selfCall, Form.meaning, meaningOfAll_params _ _ haccept.1 args hargs,
    Option.bind_some, Lexicon.value?_define haccept hb args hargs]

/-- Lowering asks the registry for calls that are not built in only. So definitions under built-in
names change no built-in call and are never called in its place; for other numbers of arguments
they are called. -/
theorem builtins_not_hijacked (s : Session) (hs : s.Reachable) :
    (∀ (t : Session) (convention : Convention) (params : List String) (body : Form),
      s.next = t.next →
      (∀ head args, Form.call head args ∈ body.nodes → ¬ IsBuiltin head args.length →
        (s.registry.resolve? head args.length).map Entry.number =
          (t.registry.resolve? head args.length).map Entry.number) →
      Routine.compile s.registry s.next convention params body =
        Routine.compile t.registry t.next convention params body) ∧
    (∀ (ds : List Definition) (params : List String) (body : Form),
      (∀ d ∈ ds, d.name ∈ builtinNames) → body.UsesBuiltins →
      (∃ e, (s.exportExpression body params).result = .error e ∧
          ((s.after (ds.map .define)).exportExpression body params).result = .error e) ∨
        SameFunction params.length (s.exportExpression body params)
          ((s.after (ds.map .define)).exportExpression body params)) ∧
    (∀ (head : String) (args : List Form) (params : List String) (xs : List Quad),
      IsBuiltin head args.length → xs.length = params.length →
      (∀ f ∈ args, ∃ handle, (s.exportExpression f params).result = .ok handle) →
      ∃ vs q, List.Forall₂ (s.Gives params xs) args vs ∧ builtinValue? head vs = some q ∧
        s.Gives params xs (.call head args) q) ∧
    (∀ r ∈ s.image, ∀ name entry, (name, entry) ∈ s.registry → IsBuiltin name entry.arity →
      ¬ CallsNumber r.code r.imports entry.number) ∧
    ∀ d : Definition, ¬ IsBuiltin d.name d.arity → (s.define d).result = .ok () →
      (∀ convention params body r log args,
        Routine.compile (s.define d).session.registry (s.define d).session.next convention
          params body = (.ok r, log) →
        Form.call d.name args ∈ body.nodes → args.length = d.arity →
        CallsNumber r.code r.imports s.next) ∧
      SameFunction d.arity (s.exportDefinition d)
        ((s.define d).session.exportExpression d.selfCall d.params) := by
  refine ⟨?_, ?_, ?_, ?_, ?_⟩
  · intro t convention params body hnext hcalls
    rw [hnext]
    exact Routine.compile_congr _ _ _ _ (Registry.agreeOn_of_number hcalls)
  · intro ds params body hds hbody
    exact hs.same_after_builtins hds hbody params
  · intro head args params xs hb hxs hargs
    exact hs.builtin_gives hb hargs hxs
  · intro r hr name entry hentry hb
    exact not_callsNumber hs hr hentry hb
  · intro d hb hd
    constructor
    · intro convention params body r log args hr hcall hargs
      exact callsNumber_of_define hd hb hr hcall hargs
    · exact hs.sameFunction_selfCall hd hb

def hijacking : List Definition :=
  [⟨"+", ["x", "y"], .var "x"⟩, ⟨"sqrt", ["x"], .call "+" [.var "x", .var "x"]⟩]

def rootOfSum : Form := .call "sqrt" [.call "+" [.var "a", .var "b"]]

def plusOne : Definition := ⟨"+", ["x"], .call "+" [.var "x", .number (.ofNat 1)]⟩

theorem builtins_not_hijacked_rootOfSum :
    SameFunction 2 (exportExpression {} rootOfSum ["a", "b"])
        ((after {} (hijacking.map .define)).exportExpression rootOfSum ["a", "b"]) ∧
      SameFunction 1 (exportDefinition {} plusOne)
        ((define {} plusOne).session.exportExpression plusOne.selfCall plusOne.params) := by
  have hs : Reachable {} := ⟨{}, .refl _⟩
  obtain ⟨-, hunchanged, -, -, hreached⟩ := builtins_not_hijacked {} hs
  constructor
  · have hbody : rootOfSum.UsesBuiltins := by
      intro head args hcall _
      simp only [rootOfSum, Form.nodes, nodesOfAll, List.nil_append, List.cons_append,
        List.append_nil, List.mem_cons, List.not_mem_nil, or_false, Form.call.injEq,
        reduceCtorEq, false_or] at hcall
      rcases hcall with ⟨rfl, rfl⟩ | ⟨rfl, rfl⟩ <;> decide
    rcases hunchanged hijacking ["a", "b"] rootOfSum (by decide) hbody with ⟨e, he, -⟩ | hsame
    · obtain ⟨handle, hok, -⟩ := (interprets_new {}).exists_export "externalexpr"
        (show Accepts (Lexicon.known []) ["a", "b"] rootOfSum by decide)
      cases hok.symm.trans he
    · exact hsame
  · exact (hreached plusOne (by decide) (define_of_accepts {} plusOne (by decide))).2

end Session
end FourLane
