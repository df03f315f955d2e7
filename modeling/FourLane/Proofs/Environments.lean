import FourLane.Proofs.Inlining

/-!
# What a form sees of its parameters

A form asks its environment for the names that occur in it, and takes zero for those that have no
vector. Two parameter lists under which these names have the same vectors are therefore as good as
each other: the form fails with the same fault under both, or gives the same vector. The order of
the parameters has no part in this, nor have parameters that do not occur, nor those that are zero.
-/
namespace FourLane

/-- The names in the form have the same vectors in both environments, zero where they have none. -/
def Form.SeesAlike (f : Form) (env env' : List (String × Quad)) : Prop :=
  ∀ name, Form.var name ∈ f.nodes →
    (env.lookup name).getD .zero = (env'.lookup name).getD .zero

theorem Form.SeesAlike.of_arg {head : String} {args : List Form} {env env' : List (String × Quad)}
    (h : (Form.call head args).SeesAlike env env') {f : Form} (hf : f ∈ args) :
    f.SeesAlike env env' :=
  fun name hname => h name (Form.mem_nodes_of_arg hf hname)

theorem meaning_of_seesAlike (lexicon : Lexicon) {env env' : List (String × Quad)} (f : Form)
    (h : f.SeesAlike env env') : f.meaning lexicon env = f.meaning lexicon env' := by
  induction f with
  | number x => rfl
  | var name =>
    rw [Form.meaning, Form.meaning, h name List.mem_cons_self]
  | call head args ih =>
    have hargs : meaningOfAll lexicon env args = meaningOfAll lexicon env' args := by
      apply meaningOfAll_congr
      rw [List.forall₂_same]
      intro f hf
      exact ih f hf (h.of_arg hf)
    rw [Form.meaning, Form.meaning, hargs]
  | definition name params body _ => rfl

/-! ### Environments of parameters -/

theorem lookup_zip_eq_none {α : Type} {params : List String} {args : List α} {name : String}
    (h : name ∉ params) : (params.zip args).lookup name = none := by
  cases hlookup : (params.zip args).lookup name with
  | none => rfl
  | some a => exact absurd (List.of_mem_zip (mem_of_lookup hlookup)).1 h

theorem exists_mem_zip {α : Type} {params : List String} {args : List α} {name : String}
    (hlength : args.length = params.length) (h : name ∈ params) :
    ∃ a, (name, a) ∈ params.zip args := by
  have hfst : (params.zip args).map Prod.fst = params :=
    List.map_fst_zip (Nat.le_of_eq hlength.symm)
  rw [← hfst] at h
  obtain ⟨⟨_, a⟩, hmem, rfl⟩ := List.mem_map.mp h
  exact ⟨a, hmem⟩

variable {f : Form} {params params' : List String} {args args' : List Quad}

/-- Further parameters that do not occur, or are zero, are not seen. -/
theorem seesAlike_of_subset (hnodup : params.Nodup) (hnodup' : params'.Nodup)
    (hlength : args.length = params.length) (hsubset : params.zip args ⊆ params'.zip args')
    (hfurther : ∀ name v, (name, v) ∈ params'.zip args' → name ∉ params →
      Form.var name ∉ f.nodes ∨ v = .zero) :
    f.SeesAlike (params.zip args) (params'.zip args') := by
  intro name hname
  by_cases hmem : name ∈ params
  · obtain ⟨v, hv⟩ := exists_mem_zip hlength hmem
    rw [lookup_of_mem_zip hnodup hv, lookup_of_mem_zip hnodup' (hsubset hv)]
  · rw [lookup_zip_eq_none hmem]
    cases hlookup : (params'.zip args').lookup name with
    | none => rfl
    | some v =>
      have hzero := (hfurther name v (mem_of_lookup hlookup) hmem).resolve_left fun hn => hn hname
      rw [hzero]
      rfl

theorem seesAlike_of_perm (hnodup : params.Nodup) (hnodup' : params'.Nodup)
    (hlength : args.length = params.length) (hperm : (params.zip args).Perm (params'.zip args')) :
    f.SeesAlike (params.zip args) (params'.zip args') := by
  apply seesAlike_of_subset hnodup hnodup' hlength hperm.subset
  intro name v hmem hname
  exact absurd (List.of_mem_zip (hperm.mem_iff.mpr hmem)).1 hname

/-! ### Two compilations compared -/

namespace Session

/-- A compiled function gives the vector, called as its convention says. From outside it is entered,
or called where the arguments are not too many. -/
def Yields (convention : Convention) (o : Outcome Handle) (args : List Quad) (q : Quad) : Prop :=
  ∃ handle, o.result = .ok handle ∧
    match convention with
    | .byValue => o.session.image.run handle.number (args.map .vector) = some (.vector q)
    | .byAddress => o.session.enter handle args = some q ∧
        (args.length ≤ callLimit → o.session.call handle args = .ok q)

/-- Both fail with one fault, or both give one vector, each for its own arguments. -/
def Agree (convention : Convention) (o : Outcome Handle) (args : List Quad) (o' : Outcome Handle)
    (args' : List Quad) : Prop :=
  (∃ e, o.result = .error e ∧ o'.result = .error e) ∨
    ∃ q, Yields convention o args q ∧ Yields convention o' args' q

variable {s : Session} {lexicon : Lexicon}

theorem Interprets.yields (h : s.Interprets lexicon) {convention : Convention} (name : String)
    {params : List String} {body : Form} {r : Routine} {log : List Event}
    (hr : Routine.compile s.registry s.next convention params body = (.ok r, log))
    {args : List Quad} (hargs : args.length = params.length) :
    ∃ q, body.meaning lexicon (params.zip args) = some q ∧
      Yields convention (s.compile convention name params body) args q := by
  obtain ⟨q, hq, hrun⟩ := h.computes_compiled hr args hargs
  rw [s.compile_of_lowered _ name _ _ hr]
  refine ⟨q, hq, ⟨r.number, params.length⟩, rfl, ?_⟩
  cases convention with
  | byValue => exact hrun
  | byAddress =>
    have henter : (s.install name r).enter ⟨r.number, params.length⟩ args = some q := by
      rw [enter, if_pos hargs]
      exact hrun
    refine ⟨henter, fun hlimit => ?_⟩
    rw [call, if_neg (not_not.mpr hargs), if_neg (Nat.not_lt.mpr hlimit), henter]

theorem Interprets.agree (h : s.Interprets lexicon) {convention : Convention} {name : String}
    {params params' : List String} {body body' : Form} {args args' : List Quad}
    (hargs : args.length = params.length) (hargs' : args'.length = params'.length)
    (hfault : Lowering.faultOf (s.compile convention name params body).result =
      Lowering.faultOf (s.compile convention name params' body').result)
    (hmeaning : body.meaning lexicon (params.zip args) = body'.meaning lexicon (params'.zip args')) :
    Agree convention (s.compile convention name params body) args
      (s.compile convention name params' body') args' := by
  rcases s.compile_cases convention name params body with ⟨e, log, -, ho⟩ | ⟨r, log, hr, ho⟩
  · rcases s.compile_cases convention name params' body' with ⟨e', log', -, ho'⟩ | ⟨r', log', -, ho'⟩
    · rw [ho, ho'] at hfault
      obtain rfl : e = e' := Option.some.inj hfault
      exact .inl ⟨e, by rw [ho], by rw [ho']⟩
    · rw [ho, ho'] at hfault
      cases hfault
  · rcases s.compile_cases convention name params' body' with ⟨e', log', -, ho'⟩ | ⟨r', log', hr', -⟩
    · rw [ho, ho'] at hfault
      cases hfault
    · obtain ⟨q, hq, hyields⟩ := h.yields name hr hargs
      obtain ⟨q', hq', hyields'⟩ := h.yields name hr' hargs'
      rw [hmeaning] at hq
      obtain rfl := Option.some.inj (hq.symm.trans hq')
      exact .inr ⟨q, hyields, hyields'⟩

/-- Parameters have no part in a fault of the body. -/
theorem faultOf_compile_of_validate (s : Session) (convention : Convention) (name : String)
    {params : List String} (hparams : validateParams params = .ok ()) (body : Form) :
    Lowering.faultOf (s.compile convention name params body).result =
      body.nodes.findSome? (Form.fault? s.registry.known) := by
  rw [faultOf_compile, Routine.faultOf_compile, hparams]

theorem Reachable.agree_of_seesAlike (hs : s.Reachable) {f : Form} {ps qs : List String}
    (hps : validateParams ps = .ok ()) (hqs : validateParams qs = .ok ()) {as bs : List Quad}
    (has : as.length = ps.length) (hbs : bs.length = qs.length)
    (hsees : f.SeesAlike (ps.zip as) (qs.zip bs)) :
    Agree .byAddress (s.exportExpression f ps) as (s.exportExpression f qs) bs := by
  obtain ⟨-, lexicon, hlexicon⟩ := hs.wellFormed
  apply hlexicon.agree has hbs
  · rw [faultOf_compile_of_validate s _ _ hps, faultOf_compile_of_validate s _ _ hqs]
  · exact meaning_of_seesAlike lexicon f hsees

/-- Under two parameter lists an expression fails alike or gives the same vector if the names that
occur in it have the same vectors. It is enough that the parameters are permuted together with
their arguments, that further ones do not occur, or that they are zero. -/
theorem expression_sees_environment (s : Session) (hs : s.Reachable) (f : Form)
    (ps qs : List String) (hps : validateParams ps = .ok ()) (hqs : validateParams qs = .ok ())
    (as bs : List Quad) (has : as.length = ps.length) (hbs : bs.length = qs.length) :
    (f.SeesAlike (ps.zip as) (qs.zip bs) →
      Agree .byAddress (s.exportExpression f ps) as (s.exportExpression f qs) bs) ∧
    ((ps.zip as).Perm (qs.zip bs) →
      Agree .byAddress (s.exportExpression f ps) as (s.exportExpression f qs) bs) ∧
    (ps.zip as ⊆ qs.zip bs → (∀ name ∈ qs, name ∉ ps → Form.var name ∉ f.nodes) →
      Agree .byAddress (s.exportExpression f ps) as (s.exportExpression f qs) bs) ∧
    (ps.zip as ⊆ qs.zip bs → (∀ name v, (name, v) ∈ qs.zip bs → name ∉ ps → v = .zero) →
      Agree .byAddress (s.exportExpression f ps) as (s.exportExpression f qs) bs) := by
  have hnodup := ((validateParams_eq_ok_iff ps).mp hps).1
  have hnodup' := ((validateParams_eq_ok_iff qs).mp hqs).1
  refine ⟨?_, ?_, ?_, ?_⟩
  · exact hs.agree_of_seesAlike hps hqs has hbs
  · intro hperm
    apply hs.agree_of_seesAlike hps hqs has hbs
    exact seesAlike_of_perm hnodup hnodup' has hperm
  · intro hsubset hunused
    apply hs.agree_of_seesAlike hps hqs has hbs
    apply seesAlike_of_subset hnodup hnodup' has hsubset
    intro name v hmem hname
    exact .inl (hunused name (List.of_mem_zip hmem).1 hname)
  · intro hsubset hzero
    apply hs.agree_of_seesAlike hps hqs has hbs
    apply seesAlike_of_subset hnodup hnodup' has hsubset
    intro name v hmem hname
    exact .inr (hzero name v hmem hname)

def squaring : Session := Session.after {} [.define ⟨"sq", ["x"], .call "*" [.var "x", .var "x"]⟩]

def squareAndNames : Form := .call "+" [.call "sq" [.var "x"], .var "0", .var "y"]

theorem expression_sees_environment_squareAndNames :
    ∃ q, Yields .byAddress (squaring.exportExpression squareAndNames ["x", "y"])
        [.splat (.ofNat 3), .zero] q ∧
      Yields .byAddress (squaring.exportExpression squareAndNames ["w", "0", "x"])
        [.splat (.infinite true), .zero, .splat (.ofNat 3)] q := by
  have hsees : squareAndNames.SeesAlike (["x", "y"].zip [.splat (.ofNat 3), .zero])
      (["w", "0", "x"].zip [.splat (.infinite true), .zero, .splat (.ofNat 3)]) := by
    intro name hname
    simp only [squareAndNames, Form.nodes, nodesOfAll, List.append_nil, List.cons_append,
      List.nil_append, List.mem_cons, List.not_mem_nil, or_false, Form.var.injEq, reduceCtorEq,
      false_or] at hname
    rcases hname with rfl | rfl | rfl <;> rfl
  have hok : (squaring.exportExpression squareAndNames ["x", "y"]).result = .ok ⟨6, 2⟩ := rfl
  have hagree := (expression_sees_environment squaring ⟨{}, _, rfl⟩ squareAndNames ["x", "y"]
    ["w", "0", "x"] rfl rfl _ _ rfl rfl).1 hsees
  rcases hagree with ⟨e, he, -⟩ | hyields
  · cases hok.symm.trans he
  · exact hyields

end Session
end FourLane
