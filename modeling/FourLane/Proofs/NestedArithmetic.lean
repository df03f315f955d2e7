import FourLane.Proofs.BuiltinCalls
import FourLane.Proofs.Environments
import Mathlib

/-!
# Arithmetic on many arguments

An arithmetic call takes its arguments from the left, one after the other. It can therefore be
written as binary calls, each the first argument of the next. The code is not the same: the one form
computes all arguments before the first operation, the other goes to and fro. But wherever a form
has such a call inside, either spelling has the same fault or gives the same vector.
-/
namespace FourLane

/-- A form with a hole. -/
inductive Context where
  | hole
  | call (head : String) (before : List Form) (inner : Context) (after : List Form)
  | definition (name : String) (params : List String) (inner : Context)

def Context.fill : Context → Form → Form
  | .hole, f => f
  | .call head before inner after, f => .call head (before ++ inner.fill f :: after)
  | .definition name params inner, f => .definition name params (inner.fill f)

def nestedLeft (head : String) (first : Form) (rest : List Form) : Form :=
  rest.foldl (fun f g => .call head [f, g]) first

/-! ### Forms that can stand for each other -/

def Form.firstFault? (known : Known) (f : Form) : Option CompileFault :=
  f.nodes.findSome? (Form.fault? known)

/-- The forms have the same fault, and the same meaning whatever the parameters are. -/
structure Form.Equivalent (lexicon : Lexicon) (f g : Form) : Prop where
  fault : f.firstFault? lexicon.known = g.firstFault? lexicon.known
  meaning : ∀ env, f.meaning lexicon env = g.meaning lexicon env

theorem nodesOfAll_append (fs gs : List Form) :
    nodesOfAll (fs ++ gs) = nodesOfAll fs ++ nodesOfAll gs := by
  induction fs with
  | nil => rfl
  | cons f fs ih => rw [List.cons_append, nodesOfAll, nodesOfAll, ih, List.append_assoc]

theorem firstFault?_call (known : Known) (head : String) (args : List Form) :
    (Form.call head args).firstFault? known =
      ((nodesOfAll args).findSome? (Form.fault? known)).or ((Form.call head args).fault? known) := by
  rw [Form.firstFault?, Form.nodes, List.findSome?_append, List.findSome?_singleton]

namespace Form.Equivalent

variable {lexicon : Lexicon} {f g h : Form}

theorem refl (f : Form) : f.Equivalent lexicon f := ⟨rfl, fun _ => rfl⟩

theorem trans (hfg : f.Equivalent lexicon g) (hgh : g.Equivalent lexicon h) :
    f.Equivalent lexicon h :=
  ⟨hfg.fault.trans hgh.fault, fun env => (hfg.meaning env).trans (hgh.meaning env)⟩

theorem in_call (hfg : f.Equivalent lexicon g) (head : String) (before after : List Form) :
    (Form.call head (before ++ f :: after)).Equivalent lexicon
      (.call head (before ++ g :: after)) := by
  constructor
  · have hself : (Form.call head (before ++ f :: after)).fault? lexicon.known =
        (Form.call head (before ++ g :: after)).fault? lexicon.known := by
      simp only [Form.fault?, List.length_append, List.length_cons]
    have hfault := hfg.fault
    unfold Form.firstFault? at hfault
    simp only [firstFault?_call, nodesOfAll_append, nodesOfAll, List.findSome?_append, hself, hfault]
  · intro env
    have hargs : meaningOfAll lexicon env (before ++ f :: after) =
        meaningOfAll lexicon env (before ++ g :: after) := by
      apply meaningOfAll_congr
      apply List.rel_append
      · exact List.forall₂_same.mpr fun _ _ => rfl
      · exact .cons (hfg.meaning env) (List.forall₂_same.mpr fun _ _ => rfl)
    rw [Form.meaning, Form.meaning, hargs]

/-- What stands in the hole of a form can be replaced by an equivalent one. -/
theorem fill (hfg : f.Equivalent lexicon g) (c : Context) :
    (c.fill f).Equivalent lexicon (c.fill g) := by
  induction c with
  | hole => exact hfg
  | call head before inner after ih => exact ih.in_call head before after
  | definition name params inner _ => exact ⟨rfl, fun _ => rfl⟩

end Form.Equivalent

/-! ### Grouping to the left -/

theorem isBuiltin_of_arithmeticOf? {head : String} {op : Lane → Lane → Lane}
    (hop : arithmeticOf? head = some op) {count : Nat} (hcount : 2 ≤ count) :
    IsBuiltin head count := by
  have hhead := (arithmeticOf?_isSome_iff head).mp (by rw [hop]; rfl)
  exact .inl ⟨hhead, hcount⟩

theorem value?_arithmetic (lexicon : Lexicon) {head : String} {op : Lane → Lane → Lane}
    (hop : arithmeticOf? head = some op) (v w : Quad) (vs : List Quad) :
    lexicon.value? head (v :: w :: vs) = some ((w :: vs).foldl (Quad.zipWith op) v) := by
  have hb : IsBuiltin head (v :: w :: vs).length := isBuiltin_of_arithmeticOf? hop (by simp)
  rw [Lexicon.value?_of_isBuiltin hb, builtinValue?, hop]

theorem meaningOfAll_cons (f : Form) (fs : List Form) (lexicon : Lexicon)
    (env : List (String × Quad)) :
    meaningOfAll lexicon env (f :: fs) =
      (f.meaning lexicon env).bind fun v => (meaningOfAll lexicon env fs).map (v :: ·) := by
  rw [meaningOfAll]

theorem meaning_pair (lexicon : Lexicon) {head : String} {op : Lane → Lane → Lane}
    (hop : arithmeticOf? head = some op) (env : List (String × Quad)) (a b : Form) :
    (Form.call head [a, b]).meaning lexicon env =
      (a.meaning lexicon env).bind fun v => (b.meaning lexicon env).map (v.zipWith op) := by
  rw [Form.meaning, meaningOfAll_cons, meaningOfAll_cons, meaningOfAll]
  cases a.meaning lexicon env with
  | none => rfl
  | some v =>
    cases b.meaning lexicon env with
    | none => rfl
    | some w => exact value?_arithmetic lexicon hop v w []

/-- The first two arguments can be made one. -/
theorem equivalent_group (lexicon : Lexicon) {head : String} {op : Lane → Lane → Lane}
    (hop : arithmeticOf? head = some op) (a b c : Form) (rest : List Form) :
    (Form.call head (a :: b :: c :: rest)).Equivalent lexicon
      (.call head (.call head [a, b] :: c :: rest)) := by
  constructor
  · have hnone (args : List Form) (hargs : 2 ≤ args.length) :
        (Form.call head args).fault? lexicon.known = none := by
      rw [Form.fault?, if_pos (.inl (isBuiltin_of_arithmeticOf? hop hargs))]
    rw [firstFault?_call, firstFault?_call, hnone _ (by simp), hnone _ (by simp)]
    simp only [nodesOfAll, Form.nodes, List.findSome?_append, List.findSome?_cons,
      List.findSome?_nil, hnone [a, b] (by simp), Option.or_none, Option.or_assoc]
  · intro env
    rw [Form.meaning, Form.meaning, meaningOfAll_cons a, meaningOfAll_cons b,
      meaningOfAll_cons (.call head [a, b]), meaning_pair lexicon hop env a b]
    cases htail : meaningOfAll lexicon env (c :: rest) with
    | none => simp
    | some vs =>
      obtain ⟨x, xs, rfl⟩ : ∃ x xs, vs = x :: xs := by
        cases (meaningOfAll_eq_some_iff lexicon env _ vs).mp htail with
        | cons _ _ => exact ⟨_, _, rfl⟩
      cases a.meaning lexicon env with
      | none => rfl
      | some v =>
        cases b.meaning lexicon env with
        | none => rfl
        | some w =>
          simp only [Option.bind_some, Option.map_some, value?_arithmetic lexicon hop,
            List.foldl_cons]

/-- So can the first two of what is then left, and so on. -/
theorem equivalent_nestedLeft (lexicon : Lexicon) {head : String} {op : Lane → Lane → Lane}
    (hop : arithmeticOf? head = some op) (a b : Form) (rest : List Form) :
    (Form.call head (a :: b :: rest)).Equivalent lexicon (nestedLeft head a (b :: rest)) := by
  induction rest generalizing a b with
  | nil => exact .refl _
  | cons c rest ih =>
    exact (equivalent_group lexicon hop a b c rest).trans (ih (.call head [a, b]) c)

namespace Session

variable {s : Session} {params : List String} {args : List Quad}

theorem Gives.unique {f : Form} {q q' : Quad} (h : s.Gives params args f q)
    (h' : s.Gives params args f q') : q = q' := by
  obtain ⟨handle, hok, henter⟩ := h
  obtain ⟨handle', hok', henter'⟩ := h'
  obtain rfl : handle = handle' := Except.ok.inj (hok.symm.trans hok')
  exact Option.some.inj (henter.symm.trans henter')

theorem Yields.gives {f : Form} {q : Quad}
    (h : Yields .byAddress (s.exportExpression f params) args q) : s.Gives params args f q := by
  obtain ⟨handle, hok, henter, -⟩ := h
  exact ⟨handle, hok, henter⟩

theorem Interprets.agree_of_equivalent {lexicon : Lexicon} (h : s.Interprets lexicon) {f g : Form}
    (hfg : f.Equivalent lexicon g) (convention : Convention) (name : String)
    (hargs : args.length = params.length) :
    Agree convention (s.compile convention name params f) args
      (s.compile convention name params g) args := by
  apply h.agree hargs hargs
  · have hfault := hfg.fault
    unfold Form.firstFault? at hfault
    rw [faultOf_compile, faultOf_compile, Routine.faultOf_compile, Routine.faultOf_compile, h.known,
      hfault]
  · exact hfg.meaning _

/-- Arithmetic on what the arguments give goes from the left, one operation at a time. -/
theorem Reachable.arithmetic_gives (hs : s.Reachable) {head : String} {op : Lane → Lane → Lane}
    (hop : arithmeticOf? head = some op) {a b : Form} {rest : List Form}
    (hargs : args.length = params.length) {v : Quad} {vs : List Quad}
    (hgives : List.Forall₂ (s.Gives params args) (a :: b :: rest) (v :: vs)) :
    s.Gives params args (.call head (a :: b :: rest)) (vs.foldl (Quad.zipWith op) v) := by
  have hok : ∀ f ∈ a :: b :: rest, ∃ handle, (s.exportExpression f params).result = .ok handle := by
    intro f hf
    obtain ⟨i, hi, rfl⟩ := List.mem_iff_getElem.mp hf
    obtain ⟨handle, hhandle, -⟩ := hgives.get hi (hgives.length_eq ▸ hi)
    exact ⟨handle, hhandle⟩
  have hb : IsBuiltin head (a :: b :: rest).length := isBuiltin_of_arithmeticOf? hop (by simp)
  obtain ⟨vs', q, hvs', hq, hcall⟩ := hs.builtin_gives hb hok hargs
  obtain rfl : v :: vs = vs' :=
    List.right_unique_forall₂' (fun _ _ _ h h' => h.unique h') hgives hvs'
  cases vs with
  | nil => cases hgives.length_eq
  | cons w vs =>
    rw [builtinValue?, hop] at hq
    rw [← Option.some.inj hq] at hcall
    exact hcall

/-- Arithmetic on two arguments or more can be written as nested binary calls wherever it stands: the
fault is the same, or the vector that is given. That vector comes from those of the arguments by
one operation after the other, from the left. -/
theorem variadic_eq_nested (s : Session) (hs : s.Reachable) (head : String)
    (op : Lane → Lane → Lane) (hop : arithmeticOf? head = some op) (a b : Form) (rest : List Form)
    (params : List String) (args : List Quad) (hargs : args.length = params.length) :
    (∀ (c : Context) (convention : Convention) (name : String),
      Agree convention
        (s.compile convention name params (c.fill (.call head (a :: b :: rest)))) args
        (s.compile convention name params (c.fill (nestedLeft head a (b :: rest)))) args) ∧
    ∀ v vs, List.Forall₂ (s.Gives params args) (a :: b :: rest) (v :: vs) →
      s.Gives params args (.call head (a :: b :: rest)) (vs.foldl (Quad.zipWith op) v) ∧
        s.Gives params args (nestedLeft head a (b :: rest)) (vs.foldl (Quad.zipWith op) v) := by
  obtain ⟨-, lexicon, hlexicon⟩ := hs.wellFormed
  have hequivalent := equivalent_nestedLeft lexicon hop a b rest
  constructor
  · intro c convention name
    exact hlexicon.agree_of_equivalent (hequivalent.fill c) convention name hargs
  · intro v vs hgives
    have hcall := hs.arithmetic_gives hop hargs hgives
    refine ⟨hcall, ?_⟩
    rcases hlexicon.agree_of_equivalent hequivalent .byAddress "externalexpr" hargs with
      ⟨e, he, -⟩ | ⟨q, hq, hq'⟩
    · obtain ⟨handle, hok, -⟩ := hcall
      cases hok.symm.trans he
    · rw [hcall.unique (Yields.gives hq)]
      exact Yields.gives hq'

def calling : Context := .call "*" [.var "x"] (.call "f" [] .hole []) [.var "u"]

theorem variadic_eq_nested_calling :
    (∃ q, Yields .byAddress
        (founded.exportExpression
          (calling.fill (.call "-" [.var "x", .var "y", .number (.infinite true), .var "u"])) ["x", "y"])
        [.zero, .splat (.infinite false)] q ∧
      Yields .byAddress
        (founded.exportExpression
          (calling.fill (.call "-" [.call "-" [.call "-" [.var "x", .var "y"],
            .number (.infinite true)], .var "u"])) ["x", "y"])
        [.zero, .splat (.infinite false)] q) ∧
    founded.Gives ["x", "y"] [.zero, .splat (.infinite false)]
      (.call "-" [.call "-" [.var "x", .var "y"], .var "x"])
      ((Quad.zero.zipWith Binary.sub (.splat (.infinite false))).zipWith Binary.sub .zero) := by
  have hs : founded.Reachable := ⟨{}, _, rfl⟩
  obtain ⟨-, lexicon, hlexicon⟩ := hs.wellFormed
  constructor
  · have haccept : Accepts lexicon.known ["x", "y"] (calling.fill
        (.call "-" [.var "x", .var "y", .number (.infinite true), .var "u"])) := by
      rw [← hlexicon.known]
      decide
    obtain ⟨handle, hok, -⟩ := hlexicon.exists_export "externalexpr" haccept
    have hagree := (variadic_eq_nested founded hs "-" Binary.sub rfl (.var "x") (.var "y")
      [.number (.infinite true), .var "u"] ["x", "y"] [.zero, .splat (.infinite false)] rfl).1
      calling .byAddress "externalexpr"
    rcases hagree with ⟨e, he, -⟩ | hyields
    · cases hok.symm.trans he
    · exact hyields
  · have haccept (name : String) : Accepts lexicon.known ["x", "y"] (.var name) :=
      ⟨by decide, by decide, by simp [Form.nodes, Form.fault?]⟩
    have hgives : List.Forall₂ (founded.Gives ["x", "y"] [.zero, .splat (.infinite false)])
        [.var "x", .var "y", .var "x"] [.zero, .splat (.infinite false), .zero] :=
      .cons (hlexicon.gives (haccept "x") rfl rfl)
        (.cons (hlexicon.gives (haccept "y") rfl rfl)
          (.cons (hlexicon.gives (haccept "x") rfl rfl) .nil))
    exact ((variadic_eq_nested founded hs "-" Binary.sub rfl (.var "x") (.var "y") [.var "x"]
      ["x", "y"] [.zero, .splat (.infinite false)] rfl).2 _ _ hgives).2

end Session
end FourLane
