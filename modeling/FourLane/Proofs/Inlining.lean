import FourLane.Proofs.DefinedCalls
import FourLane.Proofs.Resolution

/-!
# A call means its inlined body

A call of a defined function can be replaced by the body of the definition, with the arguments in
place of the parameters, all at once. Other names of the body are free there and read as zero, so
zero takes their place, whatever they stand for where the call is. The function must not be called
inside its own body, where its name still stands for what was defined before.
-/
namespace FourLane

mutual

/-- The form with forms in place of its names, and zero in place of those that have none. -/
def Form.inline (args : List (String × Form)) : Form → Form
  | .number x => .number x
  | .var name => (args.lookup name).getD (.number (.zero false))
  | .call head fs => .call head (inlineAll args fs)
  | .definition name params body => .definition name params body

def inlineAll (args : List (String × Form)) : List Form → List Form
  | [] => []
  | f :: fs => f.inline args :: inlineAll args fs

end

theorem inlineAll_eq_map (args : List (String × Form)) (fs : List Form) :
    inlineAll args fs = fs.map (Form.inline args) := by
  induction fs with
  | nil => rfl
  | cons f fs ih => rw [inlineAll, List.map_cons, ih]

/-! ### Which forms can be inlined -/

theorem fault?_inline {known : Known} {args : List (String × Form)}
    (hargs : ∀ name a, args.lookup name = some a → ∀ node ∈ a.nodes, node.fault? known = none)
    (f : Form) (hf : ∀ node ∈ f.nodes, node.fault? known = none) :
    ∀ node ∈ (f.inline args).nodes, node.fault? known = none := by
  induction f with
  | number x => exact hf
  | var name =>
    rw [Form.inline]
    cases hlookup : args.lookup name with
    | none => simp [Form.nodes, Form.fault?]
    | some a => exact hargs name a hlookup
  | call head fs ih =>
    rw [Form.nodes] at hf
    have hcall := ((forall_fault?_eq_none_iff known _).mp hf).2 head fs
      (List.mem_append_right _ List.mem_cons_self)
    intro node hnode
    rw [Form.inline, inlineAll_eq_map, Form.nodes, List.mem_append, mem_nodesOfAll,
      List.mem_singleton] at hnode
    rcases hnode with ⟨g, hg, hnode⟩ | rfl
    · obtain ⟨f, hfs, rfl⟩ := List.mem_map.mp hg
      refine ih f hfs (fun node hn => hf node ?_) node hnode
      exact List.mem_append_left _ ((mem_nodesOfAll node fs).mpr ⟨f, hfs, hn⟩)
    · rw [Form.fault?, List.length_map, if_pos hcall]
  | definition name params body _ => exact hf

theorem fault?_congr {known known' : Known} {f : Form}
    (h : ∀ head ∈ f.heads, known head = known' head) :
    ∀ node ∈ f.nodes, node.fault? known = node.fault? known' := by
  intro node hnode
  cases node with
  | number x => rfl
  | var name => rfl
  | call head args => rw [Form.fault?, Form.fault?, h head (Form.mem_heads hnode)]
  | definition name params body => rfl

/-! ### What they mean -/

theorem meaningOfAll_congr {lexicon lexicon' : Lexicon} {env env' : List (String × Quad)}
    {fs gs : List Form}
    (h : List.Forall₂ (fun f g => f.meaning lexicon env = g.meaning lexicon' env') fs gs) :
    meaningOfAll lexicon env fs = meaningOfAll lexicon' env' gs := by
  induction h with
  | nil => rfl
  | cons hmeaning _ ih => rw [meaningOfAll, meaningOfAll, hmeaning, ih]

theorem meaning_inline (lexicon : Lexicon) {args : List (String × Form)}
    {env env' : List (String × Quad)}
    (h : ∀ name, ((args.lookup name).getD (.number (.zero false))).meaning lexicon env =
      some ((env'.lookup name).getD .zero)) (f : Form) :
    (f.inline args).meaning lexicon env = f.meaning lexicon env' := by
  induction f with
  | number x => rfl
  | var name => exact h name
  | call head fs ih =>
    have hall : meaningOfAll lexicon env (inlineAll args fs) = meaningOfAll lexicon env' fs := by
      refine meaningOfAll_congr ?_
      rw [inlineAll_eq_map, List.forall₂_map_left_iff, List.forall₂_same]
      exact ih
    rw [Form.inline, Form.meaning, Form.meaning, hall]
  | definition name params body _ => rfl

/-- A lexicon is asked for the calls that are not built in. -/
theorem meaning_congr {lexicon lexicon' : Lexicon} (env : List (String × Quad)) (f : Form)
    (h : ∀ head args, Form.call head args ∈ f.nodes →
      IsBuiltin head args.length ∨ lexicon.lookup head = lexicon'.lookup head) :
    f.meaning lexicon env = f.meaning lexicon' env := by
  induction f with
  | number x => rfl
  | var name => rfl
  | call head fs ih =>
    have hargs : meaningOfAll lexicon env fs = meaningOfAll lexicon' env fs :=
      meaningOfAll_congr (List.forall₂_same.mpr fun f hf =>
        ih f hf fun head' args' hcall => h head' args' (Form.mem_nodes_of_arg hf hcall))
    have hself : Form.call head fs ∈ (Form.call head fs).nodes := by simp [Form.nodes]
    rw [Form.meaning, Form.meaning, hargs]
    apply Option.bind_congr
    intro vs hvs
    have hlength := ((meaningOfAll_eq_some_iff _ _ _ _).mp hvs).length_eq
    rcases h head fs hself with hb | hlookup
    · rw [Lexicon.value?_of_isBuiltin (hlength ▸ hb), Lexicon.value?_of_isBuiltin (hlength ▸ hb)]
    · rw [Lexicon.value?, Lexicon.value?, Lexicon.definedValue?, Lexicon.definedValue?, hlookup]
  | definition name params body _ => rfl

theorem meaning_lookup_zip {lexicon : Lexicon} {env : List (String × Quad)} {args : List Form}
    {vs : List Quad} (h : List.Forall₂ (fun a v => a.meaning lexicon env = some v) args vs)
    (params : List String) (name : String) :
    (((params.zip args).lookup name).getD (.number (.zero false))).meaning lexicon env =
      some (((params.zip vs).lookup name).getD .zero) := by
  induction h generalizing params with
  | nil => rw [List.zip_nil_right, List.zip_nil_right]; rfl
  | @cons a v args vs ha _ ih =>
    cases params with
    | nil => rfl
    | cons p params =>
      rw [List.zip_cons_cons, List.zip_cons_cons, List.lookup_cons, List.lookup_cons]
      cases name == p with
      | true => exact ha
      | false => exact ih params

namespace Lexicon

variable {lexicon : Lexicon} {d : Definition} {args : List Form}

theorem lookup_define_heads (hheads : d.name ∉ d.body.heads) :
    ∀ head ∈ d.body.heads, (lexicon.define d).lookup head = lexicon.lookup head := by
  intro head hhead
  refine lookup_define_of_ne ?_
  rintro rfl
  exact hheads hhead

theorem fault?_inlined (h : Accepts lexicon.known d.params d.body) (hheads : d.name ∉ d.body.heads)
    (hargs : ∀ a ∈ args, ∀ node ∈ a.nodes, node.fault? (lexicon.define d).known = none) :
    ∀ node ∈ (d.body.inline (d.params.zip args)).nodes,
      node.fault? (lexicon.define d).known = none := by
  refine fault?_inline (fun name a hlookup => ?_) d.body fun node hnode => ?_
  · exact hargs a (List.of_mem_zip (mem_of_lookup hlookup)).2
  · have hknown : ∀ head ∈ d.body.heads, (lexicon.define d).known head = lexicon.known head :=
      fun head hhead => by rw [known, known, lookup_define_heads hheads head hhead]
    rw [fault?_congr hknown node hnode]
    exact h.2.2 node hnode

theorem meaning_inlined (h : Accepts lexicon.known d.params d.body) (hheads : d.name ∉ d.body.heads)
    (hbuiltin : ¬ IsBuiltin d.name d.arity) (hlength : args.length = d.arity)
    {env : List (String × Quad)} {vs : List Quad}
    (hvs : meaningOfAll (lexicon.define d) env args = some vs) :
    (Form.call d.name args).meaning (lexicon.define d) env =
      (d.body.inline (d.params.zip args)).meaning (lexicon.define d) env := by
  have hvalues := (meaningOfAll_eq_some_iff _ _ _ _).mp hvs
  have hcount : vs.length = d.arity := hvalues.length_eq.symm.trans hlength
  calc (Form.call d.name args).meaning (lexicon.define d) env
      = (lexicon.define d).value? d.name vs := by rw [Form.meaning, hvs, Option.bind_some]
    _ = d.body.meaning lexicon (d.params.zip vs) := value?_define h hbuiltin vs hcount
    _ = d.body.meaning (lexicon.define d) (d.params.zip vs) :=
        (meaning_congr _ d.body fun head args hcall =>
          .inr (lookup_define_heads hheads head (Form.mem_heads hcall))).symm
    _ = (d.body.inline (d.params.zip args)).meaning (lexicon.define d) env :=
        (meaning_inline _ (meaning_lookup_zip hvalues d.params) d.body).symm

end Lexicon

namespace Session

/-- A call of a function compiles and gives the same as the body of its definition with the
arguments in place of the parameters and zero in place of all other names. -/
theorem call_eq_inlined (s : Session) (hs : s.Reachable) (d : Definition)
    (hd : (s.define d).result = .ok ()) (hheads : d.name ∉ d.body.heads)
    (hbuiltin : ¬ IsBuiltin d.name d.arity) (params : List String)
    (hparams : validateParams params = .ok ()) (args : List Form) (hlength : args.length = d.arity)
    (hargs : ∀ a ∈ args, ∃ handle,
      ((s.define d).session.exportExpression a params).result = .ok handle) :
    SameFunction params.length
      ((s.define d).session.exportExpression (.call d.name args) params)
      ((s.define d).session.exportExpression (d.body.inline (d.params.zip args)) params) := by
  obtain ⟨-, lexicon, hlexicon⟩ := hs.wellFormed
  have haccept := hlexicon.accepts_of_define hd
  have hdefined := hlexicon.define d
  obtain ⟨hnodup, hreserved⟩ := (validateParams_eq_ok_iff params).mp hparams
  have hnodes : ∀ a ∈ args, ∀ node ∈ a.nodes, node.fault? (lexicon.define d).known = none := by
    intro a ha
    obtain ⟨handle, hhandle⟩ := hargs a ha
    exact (hdefined.accepts_of_compile hhandle).2.2
  have hknown : (lexicon.define d).known d.name = some args.length := by
    rw [hlength]
    exact Lexicon.known_define haccept
  refine hdefined.sameFunction hdefined _ _
    ⟨hnodup, hreserved, fault?_eq_none_call hnodes hknown⟩
    ⟨hnodup, hreserved, Lexicon.fault?_inlined haccept hheads hnodes⟩ fun vs _ => ?_
  obtain ⟨values, hvalues, -⟩ := exists_meaningOfAll (lexicon.define d) (params.zip vs) args
    fun a ha => exists_meaning _ hdefined.total _ a (hnodes a ha)
  exact Lexicon.meaning_inlined haccept hheads hbuiltin hlength hvalues

/-- Its second parameter is dropped and its first used twice; `y` is free in its body. -/
def lopsided : Definition :=
  ⟨"f", ["x", "w"], .call "+" [.call "*" [.var "x", .var "x"], .var "y"]⟩

def nestedArgs : List Form :=
  [.call "f" [.var "y", .var "x"], .call "+" [.var "x", .var "w"]]

theorem call_eq_inlined_lopsided :
    lopsided.body.inline (lopsided.params.zip nestedArgs) =
        .call "+" [.call "*" [.call "f" [.var "y", .var "x"], .call "f" [.var "y", .var "x"]],
          .number (.zero false)] ∧
      SameFunction 2
        ((define {} lopsided).session.exportExpression (.call "f" nestedArgs) ["x", "y"])
        ((define {} lopsided).session.exportExpression
          (lopsided.body.inline (lopsided.params.zip nestedArgs)) ["x", "y"]) := by
  refine ⟨rfl, ?_⟩
  have hdefine := define_of_accepts {} lopsided (by decide)
  refine call_eq_inlined {} ⟨{}, .refl _⟩ lopsided hdefine (by decide) (by decide) ["x", "y"] rfl
    nestedArgs rfl ?_
  rw [nestedArgs, List.forall_mem_cons, List.forall_mem_singleton]
  exact ⟨⟨⟨6, 2⟩, rfl⟩, ⟨⟨6, 2⟩, rfl⟩⟩

end Session
end FourLane
