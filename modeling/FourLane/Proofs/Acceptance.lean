import FourLane.Form
import FourLane.Scope
import Mathlib.Tactic.Common

/-!
# Which functions can be compiled

A form is judged node by node, in the order in which its nodes are finished: arguments from
left to right, then their call. A call offends if its head is neither built in nor known for
that number of arguments, and a definition always does. Parameters offend by being called
`result` or by repeating an earlier one. The judgement refers to what is known of defined
functions, that is, to their numbers of parameters only.
-/
namespace FourLane

theorem mem_of_lookup {α : Type} {l : List (String × α)} {name : String} {a : α}
    (h : l.lookup name = some a) : (name, a) ∈ l := by
  obtain ⟨l₁, l₂, hl, -⟩ := List.lookup_eq_some_iff.mp h
  rw [hl]
  exact List.mem_append_right _ List.mem_cons_self

theorem lookup_eq_none_iff_notMem {α : Type} {l : List (String × α)} {name : String} :
    l.lookup name = none ↔ name ∉ l.map Prod.fst := by
  constructor
  · intro h hmem
    obtain ⟨entry, hentry, hname⟩ := List.mem_map.mp hmem
    have hne := List.lookup_eq_none_iff.mp h entry hentry
    simp [hname] at hne
  · intro h
    cases hlookup : l.lookup name with
    | none => rfl
    | some a => exact absurd (List.mem_map_of_mem (mem_of_lookup hlookup)) h

/-- Induction over forms, with the hypothesis for each argument of a call. -/
@[induction_eliminator]
theorem Form.induction {P : Form → Prop} (number : ∀ x, P (.number x)) (var : ∀ name, P (.var name))
    (call : ∀ head args, (∀ a ∈ args, P a) → P (.call head args))
    (definition : ∀ name params body, P body → P (.definition name params body)) (f : Form) : P f :=
  @Form.rec P (fun args => ∀ a ∈ args, P a) number var call definition
    (fun _ h => (List.not_mem_nil h).elim)
    (fun _ _ hf hfs _ ha => (List.mem_cons.mp ha).elim (fun he => he ▸ hf) (hfs _)) f

mutual

/-- The nodes of a form, a call after its arguments. What is inside a definition is not
visited. -/
def Form.nodes : Form → List Form
  | .number x => [.number x]
  | .var name => [.var name]
  | .call head args => nodesOfAll args ++ [.call head args]
  | .definition name params body => [.definition name params body]

def nodesOfAll : List Form → List Form
  | [] => []
  | f :: fs => f.nodes ++ nodesOfAll fs

end

theorem mem_nodesOfAll (node : Form) (fs : List Form) :
    node ∈ nodesOfAll fs ↔ ∃ f ∈ fs, node ∈ f.nodes := by
  induction fs with
  | nil => simp [nodesOfAll]
  | cons f fs ih => simp [nodesOfAll, ih]

/-- Arithmetic takes two arguments or more, a power takes two and the rest one. -/
def IsBuiltin (head : String) (count : Nat) : Prop :=
  (head ∈ ["+", "-", "*", "/"] ∧ 2 ≤ count) ∨
    (head ∈ ["sqrt", "sin", "cos", "exp", "log"] ∧ count = 1) ∨ (head = "pow" ∧ count = 2)

instance (head : String) (count : Nat) : Decidable (IsBuiltin head count) := by
  unfold IsBuiltin
  infer_instance

namespace Builtin

theorem lookup_names_of_mem : ∀ p ∈ names, names.lookup p.1 = some p.2 := by decide

theorem resolve?_eq_some_iff (head : String) (count : Nat) (b : Builtin) :
    resolve? head count = some b ↔ (head, b) ∈ names ∧ b.takes count := by
  rw [resolve?, Option.filter_eq_some_iff]
  exact and_congr_left fun _ => ⟨mem_of_lookup, fun h => lookup_names_of_mem _ h⟩

@[simp] theorem takes_arith (op : Arithmetic) (count : Nat) :
    (arith op).takes count ↔ 2 ≤ count := by simp [takes]

@[simp] theorem takes_sqrt (count : Nat) : sqrt.takes count ↔ count = 1 := by simp [takes]

@[simp] theorem takes_elementary (e : Elementary) (count : Nat) :
    (elementary e).takes count ↔ count = e.arity := by simp [takes]

theorem resolve?_isSome_iff (head : String) (count : Nat) :
    (resolve? head count).isSome ↔ IsBuiltin head count := by
  simp only [Option.isSome_iff_exists, resolve?_eq_some_iff, names, IsBuiltin, List.mem_cons,
    List.not_mem_nil, or_false, Prod.mk.injEq, or_and_right, exists_or, and_assoc, or_assoc,
    exists_and_left, exists_eq_left, takes_arith, takes_sqrt, takes_elementary, Elementary.arity]

end Builtin

/-- The numbers of parameters of the functions that can be called by name. -/
abbrev Known := String → Option Nat

/-- The fault of a node, its arguments apart. -/
def Form.fault? (known : Known) : Form → Option CompileFault
  | .call head args =>
    if IsBuiltin head args.length ∨ known head = some args.length then none
    else some (.unresolved head args.length)
  | .definition name _ _ => some (.nested name)
  | _ => none

/-- The fault of a parameter that stands behind the given ones. -/
def paramFault? (before : List String) (p : String) : Option CompileFault :=
  if p = "result" then some .reservedParam
  else if p ∈ before then some (.repeatedParam p)
  else none

/-- The fault of the first parameter that offends. -/
def IsParamFault (params : List String) (e : CompileFault) : Prop :=
  ∃ before p after, params = before ++ p :: after ∧ before.Nodup ∧ "result" ∉ before ∧
    paramFault? before p = some e

/-- The fault of the first node that offends. -/
def IsNodeFault (known : Known) (body : Form) (e : CompileFault) : Prop :=
  ∃ before node after, body.nodes = before ++ node :: after ∧
    (∀ n ∈ before, n.fault? known = none) ∧ node.fault? known = some e

/-- No parameter and no node offends. -/
def Accepts (known : Known) (params : List String) (body : Form) : Prop :=
  params.Nodup ∧ "result" ∉ params ∧ ∀ node ∈ body.nodes, node.fault? known = none

instance (known : Known) (params : List String) (body : Form) :
    Decidable (Accepts known params body) := by
  unfold Accepts
  infer_instance

theorem isNodeFault_iff (known : Known) (body : Form) (e : CompileFault) :
    IsNodeFault known body e ↔ body.nodes.findSome? (Form.fault? known) = some e := by
  rw [List.findSome?_eq_some_iff]
  constructor
  · rintro ⟨before, node, after, hl, hb, he⟩
    exact ⟨before, node, after, hl, he, hb⟩
  · rintro ⟨before, node, after, hl, he, hb⟩
    exact ⟨before, node, after, hl, hb, he⟩

theorem forall_fault?_eq_none_iff (known : Known) (nodes : List Form) :
    (∀ node ∈ nodes, node.fault? known = none) ↔
      (∀ name params body, Form.definition name params body ∉ nodes) ∧
        ∀ head args, Form.call head args ∈ nodes →
          IsBuiltin head args.length ∨ known head = some args.length := by
  constructor
  · intro h
    refine ⟨fun name params body hmem => ?_, fun head args hmem => ?_⟩
    · cases h _ hmem
    · by_contra hn
      have hf := h _ hmem
      rw [Form.fault?, if_neg hn] at hf
      cases hf
  · rintro ⟨hdef, hcall⟩ node hmem
    cases node with
    | number x => rfl
    | var name => rfl
    | call head args => rw [Form.fault?, if_pos (hcall head args hmem)]
    | definition name params body => exact (hdef name params body hmem).elim

theorem paramFault?_congr {before before' : List String} (h : ∀ q, q ∈ before ↔ q ∈ before')
    (p : String) : paramFault? before p = paramFault? before' p := by
  simp only [paramFault?, h]

theorem validateParamsAfter_cons (seen : List String) (p : String) (ps : List String) :
    validateParamsAfter seen (p :: ps) = match paramFault? seen p with
      | some e => .error e
      | none => validateParamsAfter (p :: seen) ps := by
  rw [validateParamsAfter, paramFault?]
  split_ifs <;> rfl

theorem validateParamsAfter_eq_ok_iff (seen params : List String) :
    validateParamsAfter seen params = .ok () ↔
      params.Nodup ∧ "result" ∉ params ∧ ∀ p ∈ params, p ∉ seen := by
  induction params generalizing seen with
  | nil => simp [validateParamsAfter]
  | cons p ps ih =>
    rw [validateParamsAfter_cons, paramFault?]
    by_cases hr : p = "result"
    · simp [hr]
    · by_cases hp : p ∈ seen
      · simp [hr, hp]
      · rw [if_neg hr, if_neg hp, ih]
        simp only [List.nodup_cons, List.mem_cons]
        grind

theorem validateParamsAfter_eq_error_iff (seen params : List String) (e : CompileFault) :
    validateParamsAfter seen params = .error e ↔
      ∃ before p after, params = before ++ p :: after ∧ validateParamsAfter seen before = .ok () ∧
        paramFault? (before ++ seen) p = some e := by
  induction params generalizing seen with
  | nil => simp [validateParamsAfter]
  | cons p ps ih =>
    have hswap (before : List String) (q : String) :
        paramFault? (p :: before ++ seen) q = paramFault? (before ++ p :: seen) q :=
      paramFault?_congr (by simp [or_left_comm]) q
    cases hf : paramFault? seen p with
    | some e' =>
      simp only [validateParamsAfter_cons, hf, Except.error.injEq]
      constructor
      · rintro rfl
        exact ⟨[], p, ps, rfl, rfl, hf⟩
      · rintro ⟨_ | ⟨q, before⟩, q', after, heq, hok, hq⟩
        · obtain ⟨rfl, -⟩ := List.cons.inj heq
          exact Option.some.inj (hf.symm.trans hq)
        · obtain ⟨rfl, -⟩ := List.cons.inj heq
          simp only [validateParamsAfter_cons, hf] at hok
          cases hok
    | none =>
      simp only [validateParamsAfter_cons, hf, ih]
      constructor
      · rintro ⟨before, q, after, rfl, hok, hq⟩
        refine ⟨p :: before, q, after, rfl, ?_, (hswap before q).trans hq⟩
        simpa only [validateParamsAfter_cons, hf] using hok
      · rintro ⟨_ | ⟨q, before⟩, q', after, heq, hok, hq⟩
        · obtain ⟨rfl, -⟩ := List.cons.inj heq
          cases hf.symm.trans hq
        · obtain ⟨rfl, rfl⟩ := List.cons.inj heq
          refine ⟨before, q', after, rfl, ?_, (hswap before q').symm.trans hq⟩
          simpa only [validateParamsAfter_cons, hf] using hok

theorem validateParams_eq_ok_iff (params : List String) :
    validateParams params = .ok () ↔ params.Nodup ∧ "result" ∉ params := by
  simp [validateParams, validateParamsAfter_eq_ok_iff]

theorem validateParams_eq_error_iff (params : List String) (e : CompileFault) :
    validateParams params = .error e ↔ IsParamFault params e := by
  simp [validateParams, validateParamsAfter_eq_error_iff, validateParamsAfter_eq_ok_iff,
    IsParamFault, and_assoc]

end FourLane
