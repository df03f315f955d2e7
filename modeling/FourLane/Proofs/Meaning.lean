import FourLane.Proofs.Acceptance
import Mathlib.Data.List.Forall2

/-!
# What forms mean

The meaning of a form is a vector, given vectors for its parameters and the meanings of the
functions that it may call. It is said without code: numbers stand in all four lanes, names
without a vector are zero, built-in operations act lane by lane, and any other call applies
the function of that name and number of parameters. A lexicon holds what functions meant
when they were defined, so that a later definition of the same name changes no older one.
-/
namespace FourLane

def arithmeticOf? : String → Option (Lane → Lane → Lane)
  | "+" => some Binary.add
  | "-" => some Binary.sub
  | "*" => some Binary.mul
  | "/" => some Binary.div
  | _ => none

def unaryOf? : String → Option (Lane → Lane)
  | "sqrt" => some Binary.sqrt
  | "sin" => some Lane.sin
  | "cos" => some Lane.cos
  | "exp" => some Lane.exp
  | "log" => some Lane.log
  | _ => none

/-- The value of a built-in operation. Arithmetic goes from the left. -/
def builtinValue? (head : String) : List Quad → Option Quad
  | [] => none
  | [v] => (unaryOf? head).map v.map
  | v :: w :: vs =>
    match arithmeticOf? head with
    | some op => some ((w :: vs).foldl (Quad.zipWith op) v)
    | none => if head = "pow" ∧ vs = [] then some (v.zipWith Lane.pow w) else none

/-- What a defined function does to as many vectors as it has parameters. -/
structure Meaning where
  arity : Nat
  apply : List Quad → Option Quad

/-- The defined functions by name; the first entry of a name counts. -/
abbrev Lexicon := List (String × Meaning)

namespace Lexicon

def known (lexicon : Lexicon) : Known := fun name => (lexicon.lookup name).map Meaning.arity

def definedValue? (lexicon : Lexicon) (head : String) (vs : List Quad) : Option Quad :=
  (lexicon.lookup head).bind fun m => if m.arity = vs.length then m.apply vs else none

def value? (lexicon : Lexicon) (head : String) (vs : List Quad) : Option Quad :=
  (builtinValue? head vs).or (lexicon.definedValue? head vs)

end Lexicon

mutual

def Form.meaning (lexicon : Lexicon) (env : List (String × Quad)) : Form → Option Quad
  | .number x => some (.splat x)
  | .var name => some ((env.lookup name).getD .zero)
  | .call head args => (meaningOfAll lexicon env args).bind (lexicon.value? head)
  | .definition _ _ _ => none

def meaningOfAll (lexicon : Lexicon) (env : List (String × Quad)) : List Form → Option (List Quad)
  | [] => some []
  | f :: fs => (f.meaning lexicon env).bind fun v => (meaningOfAll lexicon env fs).map (v :: ·)

end

/-- A definition means its body, with the functions that are defined at that moment. -/
def Definition.meaning (lexicon : Lexicon) (d : Definition) : Meaning where
  arity := d.arity
  apply args := d.body.meaning lexicon (d.params.zip args)

/-- The lexicon after a definition, which is of no effect if it is not accepted. -/
def Lexicon.define (lexicon : Lexicon) (d : Definition) : Lexicon :=
  if Accepts lexicon.known d.params d.body then (d.name, d.meaning lexicon) :: lexicon else lexicon

theorem Quad.get_map (g : Lane → Lane) (v : Quad) (lane : Fin 4) :
    (v.map g).get lane = g (v.get lane) := by
  match lane with
  | 0 | 1 | 2 | 3 => rfl

theorem Quad.get_zipWith (g : Lane → Lane → Lane) (v w : Quad) (lane : Fin 4) :
    (v.zipWith g w).get lane = g (v.get lane) (w.get lane) := by
  match lane with
  | 0 | 1 | 2 | 3 => rfl

theorem arithmeticOf?_isSome_iff (head : String) :
    (arithmeticOf? head).isSome ↔ head ∈ ["+", "-", "*", "/"] := by
  unfold arithmeticOf?
  split <;> simp_all

theorem unaryOf?_isSome_iff (head : String) :
    (unaryOf? head).isSome ↔ head ∈ ["sqrt", "sin", "cos", "exp", "log"] := by
  unfold unaryOf?
  split <;> simp_all

theorem builtinValue?_isSome_iff (head : String) (vs : List Quad) :
    (builtinValue? head vs).isSome ↔ IsBuiltin head vs.length := by
  match vs with
  | [] => simp [builtinValue?, IsBuiltin]
  | [v] => simp [builtinValue?, IsBuiltin, unaryOf?_isSome_iff]
  | v :: w :: vs =>
    have ha := arithmeticOf?_isSome_iff head
    rw [builtinValue?, IsBuiltin]
    cases hop : arithmeticOf? head with
    | some op =>
      rw [hop] at ha
      simp [ha.mp rfl]
    | none =>
      have hn : head ∉ ["+", "-", "*", "/"] := by simp [← ha, hop]
      have hone : (v :: w :: vs).length ≠ 1 := by simp
      have htwo : (v :: w :: vs).length = 2 ↔ vs = [] := by simp
      simp only [hn, hone, htwo, false_and, and_false, false_or]
      split_ifs with hp <;> simp [hp]

theorem arithmeticOf?_of_resolve (head : String) (count : Nat) (op : Arithmetic)
    (h : Builtin.resolve? head count = some (.arith op)) : arithmeticOf? head = some op.apply := by
  have hmem := ((Builtin.resolve?_eq_some_iff head count _).mp h).1
  simp only [Builtin.names, List.mem_cons, Prod.mk.injEq, Builtin.arith.injEq, reduceCtorEq,
    and_false, or_false, List.not_mem_nil] at hmem
  rcases hmem with ⟨rfl, rfl⟩ | ⟨rfl, rfl⟩ | ⟨rfl, rfl⟩ | ⟨rfl, rfl⟩ <;> rfl

theorem unaryOf?_of_resolve_sqrt (head : String) (count : Nat)
    (h : Builtin.resolve? head count = some .sqrt) : unaryOf? head = some Binary.sqrt := by
  have hmem := ((Builtin.resolve?_eq_some_iff head count _).mp h).1
  obtain rfl : head = "sqrt" := by simpa [Builtin.names] using hmem
  rfl

theorem builtinValue?_of_resolve_elementary (head : String) (e : Elementary) (vs : List Quad)
    (h : Builtin.resolve? head vs.length = some (.elementary e)) :
    ∃ q, builtinValue? head vs = some q ∧
      ∀ lane, e.apply (vs.map fun v => v.get lane) = some (q.get lane) := by
  obtain ⟨hmem, htakes⟩ := (Builtin.resolve?_eq_some_iff head vs.length _).mp h
  have hlen := (Builtin.takes_elementary e vs.length).mp htakes
  simp only [Builtin.names, List.mem_cons, Prod.mk.injEq, Builtin.elementary.injEq, reduceCtorEq,
    and_false, or_false, false_or, List.not_mem_nil] at hmem
  rcases hmem with ⟨rfl, rfl⟩ | ⟨rfl, rfl⟩ | ⟨rfl, rfl⟩ | ⟨rfl, rfl⟩ | ⟨rfl, rfl⟩
  iterate 4
    obtain ⟨v, rfl⟩ := List.length_eq_one_iff.mp hlen
    refine ⟨_, rfl, fun lane => ?_⟩
    rw [Quad.get_map]
    rfl
  · obtain ⟨v, w, rfl⟩ := List.length_eq_two.mp hlen
    refine ⟨_, rfl, fun lane => ?_⟩
    rw [Quad.get_zipWith]
    rfl

namespace Lexicon

/-- Every function has a value for as many vectors as it has parameters. -/
def Total (lexicon : Lexicon) : Prop :=
  ∀ name m, lexicon.lookup name = some m → ∀ vs, vs.length = m.arity → (m.apply vs).isSome

theorem definedValue?_isSome (lexicon : Lexicon) (htotal : lexicon.Total) (head : String)
    (vs : List Quad) (hk : lexicon.known head = some vs.length) :
    (lexicon.definedValue? head vs).isSome := by
  obtain ⟨m, hm, ha⟩ := Option.map_eq_some_iff.mp hk
  rw [definedValue?, hm, Option.bind_some, if_pos ha]
  exact htotal head m hm vs ha.symm

theorem value?_isSome (lexicon : Lexicon) (htotal : lexicon.Total) (head : String)
    (vs : List Quad) (h : IsBuiltin head vs.length ∨ lexicon.known head = some vs.length) :
    (lexicon.value? head vs).isSome := by
  rw [value?, Option.isSome_or, Bool.or_eq_true, builtinValue?_isSome_iff]
  exact h.imp_right (lexicon.definedValue?_isSome htotal head vs)

/-- No definition has a part in a call that is built in. -/
theorem value?_of_isBuiltin {lexicon : Lexicon} {head : String} {vs : List Quad}
    (h : IsBuiltin head vs.length) : lexicon.value? head vs = builtinValue? head vs := by
  obtain ⟨v, hv⟩ := Option.isSome_iff_exists.mp ((builtinValue?_isSome_iff head vs).mpr h)
  rw [value?, hv, Option.some_or]

end Lexicon

theorem meaningOfAll_eq_some_iff (lexicon : Lexicon) (env : List (String × Quad)) (fs : List Form)
    (vs : List Quad) :
    meaningOfAll lexicon env fs = some vs ↔
      List.Forall₂ (fun f v => f.meaning lexicon env = some v) fs vs := by
  induction fs generalizing vs with
  | nil => simp [meaningOfAll, eq_comm]
  | cons f fs ih =>
    simp only [meaningOfAll, Option.bind_eq_some_iff, Option.map_eq_some_iff, ih]
    constructor
    · rintro ⟨v, hv, rest, hrest, rfl⟩
      exact .cons hv hrest
    · rintro (_ | ⟨hv, hrest⟩)
      exact ⟨_, hv, _, hrest, rfl⟩

theorem exists_meaningOfAll (lexicon : Lexicon) (env : List (String × Quad)) (fs : List Form)
    (h : ∀ f ∈ fs, ∃ v, f.meaning lexicon env = some v) :
    ∃ vs, meaningOfAll lexicon env fs = some vs ∧ vs.length = fs.length := by
  induction fs with
  | nil => exact ⟨[], rfl, rfl⟩
  | cons f fs ih =>
    obtain ⟨v, hv⟩ := h f List.mem_cons_self
    obtain ⟨vs, hvs, hlen⟩ := ih fun g hg => h g (List.mem_cons_of_mem f hg)
    exact ⟨v :: vs, by simp [meaningOfAll, hv, hvs], by simp [hlen]⟩

/-- A form in which no node offends has a meaning, whatever the parameters are. -/
theorem exists_meaning (lexicon : Lexicon) (htotal : lexicon.Total) (env : List (String × Quad))
    (f : Form) (hf : ∀ node ∈ f.nodes, node.fault? lexicon.known = none) :
    ∃ v, f.meaning lexicon env = some v := by
  induction f with
  | number x => exact ⟨_, rfl⟩
  | var name => exact ⟨_, rfl⟩
  | call head args ih =>
    rw [Form.nodes] at hf
    obtain ⟨vs, hvs, hlen⟩ := exists_meaningOfAll lexicon env args fun a ha =>
      ih a ha fun node hn =>
        hf node (List.mem_append_left _ ((mem_nodesOfAll node args).mpr ⟨a, ha, hn⟩))
    have hcall := ((forall_fault?_eq_none_iff lexicon.known _).mp hf).2 head args
      (List.mem_append_right _ List.mem_cons_self)
    rw [← hlen] at hcall
    obtain ⟨v, hv⟩ := Option.isSome_iff_exists.mp (lexicon.value?_isSome htotal head vs hcall)
    exact ⟨v, by rw [Form.meaning, hvs, Option.bind_some, hv]⟩
  | definition name params body _ => cases hf _ List.mem_cons_self

theorem Lexicon.total_define (lexicon : Lexicon) (htotal : lexicon.Total) (d : Definition) :
    (lexicon.define d).Total := by
  rw [Lexicon.define]
  split_ifs with ha
  · intro name m hm vs hlen
    by_cases hn : name = d.name
    · obtain rfl : d.meaning lexicon = m := by simpa [hn] using hm
      exact Option.isSome_iff_exists.mpr (exists_meaning lexicon htotal _ d.body ha.2.2)
    · rw [List.lookup_cons, beq_false_of_ne hn] at hm
      exact htotal name m hm vs hlen
  · exact htotal

end FourLane
