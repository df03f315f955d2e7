import FourLane.Proofs.Builds
import Mathlib

/-!
# Lanes do not mix

Whatever is compiled treats all lanes alike and apart from each other. This is said by comparing
two runs: where lane `i` of the arguments of one is lane `j` of the arguments of the other, lane
`i` of the one result is lane `j` of the other. It holds of the built-in operations, of every
form by induction, and so of every meaning in the lexicon of a session. The scalar function that
a routine applies in each lane is found by running it on vectors of equal lanes.
-/
namespace FourLane

namespace Quad

theorem ext_get {v w : Quad} (h : ∀ i, v.get i = w.get i) : v = w := by
  cases v
  cases w
  exact Quad.mk.injEq .. ▸ ⟨h 0, h 1, h 2, h 3⟩

theorem get_splat (x : Lane) (i : Fin 4) : (splat x).get i = x := by
  match i with
  | 0 | 1 | 2 | 3 => rfl

/-- The vector with the lanes of the given places. -/
def rearrange (places : Fin 4 → Fin 4) (v : Quad) : Quad :=
  ⟨v.get (places ⟨0, by decide⟩), v.get (places ⟨1, by decide⟩), v.get (places ⟨2, by decide⟩),
    v.get (places ⟨3, by decide⟩)⟩

theorem get_rearrange (places : Fin 4 → Fin 4) (v : Quad) (i : Fin 4) :
    (v.rearrange places).get i = v.get (places i) := by
  match i with
  | 0 | 1 | 2 | 3 => rfl

theorem get_foldl_zipWith (op : Lane → Lane → Lane) (v : Quad) (vs : List Quad) (i : Fin 4) :
    (vs.foldl (zipWith op) v).get i = (vs.map fun w => w.get i).foldl op (v.get i) := by
  induction vs generalizing v with
  | nil => rfl
  | cons w vs ih => rw [List.foldl_cons, ih, get_zipWith, List.map_cons, List.foldl_cons]

end Quad

/-- Lane `i` of the first vectors is lane `j` of the others, one by one. -/
def SameLane (i j : Fin 4) (vs ws : List Quad) : Prop :=
  vs.map (fun v => v.get i) = ws.map fun w => w.get j

theorem SameLane.length_eq {i j : Fin 4} {vs ws : List Quad} (h : SameLane i j vs ws) :
    vs.length = ws.length := by
  simpa using congrArg List.length h

theorem sameLane_cons_iff {i j : Fin 4} {v w : Quad} {vs ws : List Quad} :
    SameLane i j (v :: vs) (w :: ws) ↔ v.get i = w.get j ∧ SameLane i j vs ws :=
  List.cons_eq_cons

/-- A function of vectors for which the lanes of the arguments decide those of the result. -/
def Lanewise (f : List Quad → Option Quad) : Prop :=
  ∀ i j vs ws, SameLane i j vs ws → ∀ v w, f vs = some v → f ws = some w → v.get i = w.get j

theorem lanewise_builtinValue? (head : String) : Lanewise (builtinValue? head) := by
  intro i j vs ws h v w hv hw
  match vs, ws, h.length_eq with
  | [], [], _ => cases hv
  | [a], [b], _ =>
    obtain ⟨g, hg, rfl⟩ := Option.map_eq_some_iff.mp hv
    obtain ⟨g', hg', rfl⟩ := Option.map_eq_some_iff.mp hw
    obtain rfl := Option.some.inj (hg.symm.trans hg')
    rw [Quad.get_map, Quad.get_map, (sameLane_cons_iff.mp h).1]
  | a :: a' :: as, b :: b' :: bs, _ =>
    obtain ⟨hfirst, hrest⟩ := sameLane_cons_iff.mp h
    rw [builtinValue?] at hv hw
    cases hop : arithmeticOf? head with
    | some op =>
      rw [hop] at hv hw
      obtain rfl := Option.some.inj hv
      obtain rfl := Option.some.inj hw
      rw [Quad.get_foldl_zipWith, Quad.get_foldl_zipWith, hfirst]
      exact congrArg _ hrest
    | none =>
      rw [hop] at hv hw
      simp only [Option.ite_none_right_eq_some, Option.some.injEq] at hv hw
      have hsecond := (sameLane_cons_iff.mp hrest).1
      rw [← hv.2, ← hw.2, Quad.get_zipWith, Quad.get_zipWith, hfirst, hsecond]

namespace Lexicon

def Lanewise (lexicon : Lexicon) : Prop :=
  ∀ name m, lexicon.lookup name = some m → FourLane.Lanewise m.apply

theorem lanewise_definedValue? {lexicon : Lexicon} (h : lexicon.Lanewise) (head : String) :
    FourLane.Lanewise (lexicon.definedValue? head) := by
  intro i j vs ws hlane v w hv hw
  obtain ⟨m, hm, hv⟩ := Option.bind_eq_some_iff.mp hv
  rw [definedValue?, hm, Option.bind_some] at hw
  split_ifs at hv hw
  exact h head m hm i j vs ws hlane v w hv hw

theorem lanewise_value? {lexicon : Lexicon} (h : lexicon.Lanewise) (head : String) :
    FourLane.Lanewise (lexicon.value? head) := by
  intro i j vs ws hlane v w hv hw
  -- Whether a head is built in depends on the number of arguments only.
  have hiff : (builtinValue? head vs).isSome ↔ (builtinValue? head ws).isSome := by
    rw [builtinValue?_isSome_iff, builtinValue?_isSome_iff, hlane.length_eq]
  rw [value?] at hv hw
  cases hb : builtinValue? head vs with
  | some v' =>
    obtain ⟨w', hb'⟩ := Option.isSome_iff_exists.mp (hiff.mp (by rw [hb]; rfl))
    rw [hb, Option.some_or] at hv
    rw [hb', Option.some_or] at hw
    cases hv
    cases hw
    exact lanewise_builtinValue? head i j vs ws hlane _ _ hb hb'
  | none =>
    have hb' : builtinValue? head ws = none := by
      rw [← Option.not_isSome_iff_eq_none, ← hiff, hb]
      simp
    rw [hb, Option.none_or] at hv
    rw [hb', Option.none_or] at hw
    exact lanewise_definedValue? h head i j vs ws hlane v w hv hw

end Lexicon

section Forms

variable {lexicon : Lexicon} {i j : Fin 4} {env env' : List (String × Quad)}

theorem sameLane_meaningOfAll (fs : List Form)
    (hfs : ∀ f ∈ fs, ∀ v w, f.meaning lexicon env = some v → f.meaning lexicon env' = some w →
      v.get i = w.get j)
    (vs ws : List Quad) (hvs : meaningOfAll lexicon env fs = some vs)
    (hws : meaningOfAll lexicon env' fs = some ws) : SameLane i j vs ws := by
  rw [meaningOfAll_eq_some_iff] at hvs hws
  induction hvs generalizing ws with
  | nil =>
    cases hws
    rfl
  | @cons f v fs vs hv _ ih =>
    obtain ⟨w, ws, hw, htail, rfl⟩ := List.forall₂_cons_left_iff.mp hws
    have hfirst := hfs f List.mem_cons_self v w hv hw
    have hrest := ih (fun g hg => hfs g (List.mem_cons_of_mem f hg)) ws htail
    exact sameLane_cons_iff.mpr ⟨hfirst, hrest⟩

/-- The two-run lemma: a form passes on the agreement of two environments in a lane. -/
theorem meaning_sameLane (hlexicon : lexicon.Lanewise)
    (henv : ∀ name, (env.lookup name).map (fun v => v.get i) =
      (env'.lookup name).map fun v => v.get j)
    (f : Form) (v w : Quad) (hv : f.meaning lexicon env = some v)
    (hw : f.meaning lexicon env' = some w) : v.get i = w.get j := by
  induction f generalizing v w with
  | number x =>
    cases hv
    cases hw
    rw [Quad.get_splat, Quad.get_splat]
  | var name =>
    cases hv
    cases hw
    have hname := henv name
    cases hl : env.lookup name with
    | none =>
      rw [hl, Option.map_none, eq_comm, Option.map_eq_none_iff] at hname
      rw [hname]
      exact (Quad.get_splat _ i).trans (Quad.get_splat _ j).symm
    | some a =>
      rw [hl, Option.map_some, eq_comm, Option.map_eq_some_iff] at hname
      obtain ⟨b, hb, heq⟩ := hname
      rw [hb]
      exact heq.symm
  | call head args ih =>
    obtain ⟨vs, hvs, hv⟩ := Option.bind_eq_some_iff.mp hv
    obtain ⟨ws, hws, hw⟩ := Option.bind_eq_some_iff.mp hw
    have hlane := sameLane_meaningOfAll args ih vs ws hvs hws
    exact Lexicon.lanewise_value? hlexicon head i j vs ws hlane v w hv hw
  | definition name params body _ => cases hv

end Forms

theorem lookup_zip_map {α β : Type} (g : α → β) (names : List String) (xs : List α)
    (name : String) :
    ((names.zip xs).lookup name).map g = (names.zip (xs.map g)).lookup name := by
  induction names generalizing xs with
  | nil => rfl
  | cons n names ih =>
    cases xs with
    | nil => rfl
    | cons x xs =>
      simp only [List.zip_cons_cons, List.map_cons, List.lookup_cons]
      cases name == n with
      | true => rfl
      | false => exact ih xs

namespace Lexicon

theorem lanewise_form {lexicon : Lexicon} (h : lexicon.Lanewise) (params : List String)
    (body : Form) : FourLane.Lanewise fun args => body.meaning lexicon (params.zip args) := by
  intro i j vs ws hlane
  refine meaning_sameLane h (fun name => ?_) body
  rw [lookup_zip_map, lookup_zip_map, hlane]

theorem Lanewise.define {lexicon : Lexicon} (h : lexicon.Lanewise) (d : Definition) :
    (lexicon.define d).Lanewise := by
  rw [Lexicon.define]
  split_ifs
  · intro name m hm
    by_cases hname : name = d.name
    · obtain rfl : d.meaning lexicon = m := by simpa [hname] using hm
      exact lanewise_form h d.params d.body
    · rw [List.lookup_cons, beq_false_of_ne hname] at hm
      exact h name m hm
  · exact h

theorem lanewise_after (builds : List Build) : (after [] builds).Lanewise := by
  have hrun : ∀ lexicon : Lexicon, lexicon.Lanewise → (lexicon.after builds).Lanewise := by
    induction builds with
    | nil => exact fun _ h => h
    | cons b builds ih =>
      intro lexicon h
      apply ih
      cases b with
      | define d => exact h.define d
      | exportDefinition d => exact h
      | exportExpression body params => exact h
  exact hrun [] (by intro name m hm; cases hm)

end Lexicon

namespace Session

/-- Each routine applies one scalar function in every lane. So a lane of the result depends on
that lane of the arguments only, rearranged lanes give rearranged lanes, and a routine without
parameters gives four equal lanes. -/
theorem compiled_lanewise (s : Session) (hs : s.Reachable) (r : Routine) (hr : r ∈ s.image) :
    (∃ g : List Lane → Lane, ∀ args, args.length = r.arity →
        ∃ q, s.applied? r args = some q ∧ ∀ i, q.get i = g (args.map fun v => v.get i)) ∧
      (∀ args args' q q', s.applied? r args = some q → s.applied? r args' = some q' →
        ∀ i, (args.map fun v => v.get i) = (args'.map fun v => v.get i) → q.get i = q'.get i) ∧
      (∀ (places : Fin 4 → Fin 4) args q, s.applied? r args = some q →
        s.applied? r (args.map (Quad.rearrange places)) = some (q.rearrange places)) ∧
      (r.arity = 0 → ∃ x, s.applied? r [] = some (.splat x)) := by
  obtain ⟨builds, params, body, happlied⟩ := hs.applied_eq_meaning hr
  have hlanewise := Lexicon.lanewise_form (Lexicon.lanewise_after builds) params body
  have hsame : ∀ i j args args' q q', SameLane i j args args' → s.applied? r args = some q →
      s.applied? r args' = some q' → q.get i = q'.get j := by
    intro i j args args' q q' hlane hq hq'
    obtain ⟨v, hv, happ⟩ := happlied args (length_of_applied? hs hr args q hq)
    obtain ⟨v', hv', happ'⟩ := happlied args' (length_of_applied? hs hr args' q' hq')
    obtain rfl := Option.some.inj (hq.symm.trans happ)
    obtain rfl := Option.some.inj (hq'.symm.trans happ')
    exact hlanewise i j args args' hlane _ _ hv hv'
  refine ⟨⟨fun xs => ((s.applied? r (xs.map .splat)).getD .zero).get 0, ?_⟩, ?_, ?_, ?_⟩
  · intro args hargs
    obtain ⟨q, -, hq⟩ := happlied args hargs
    refine ⟨q, hq, fun i => ?_⟩
    obtain ⟨q', -, hq'⟩ := happlied ((args.map fun v => v.get i).map .splat) (by simpa using hargs)
    simp only [hq', Option.getD_some]
    refine hsame i 0 args _ q q' ?_ hq hq'
    simp [SameLane, Function.comp_def, Quad.get_splat]
  · intro args args' q q' hq hq' i hlane
    exact hsame i i args args' q q' hlane hq hq'
  · intro places args q hq
    have hlength := length_of_applied? hs hr args q hq
    obtain ⟨q', -, hq'⟩ := happlied (args.map (Quad.rearrange places)) (by simpa using hlength)
    rw [hq', Option.some.injEq]
    refine Quad.ext_get fun i => ?_
    rw [Quad.get_rearrange]
    refine hsame i (places i) _ args q' q ?_ hq' hq
    simp [SameLane, Function.comp_def, Quad.get_rearrange]
  · intro harity
    obtain ⟨q, -, hq⟩ := happlied [] harity.symm
    refine ⟨q.get 0, ?_⟩
    rw [hq, Option.some.injEq]
    refine Quad.ext_get fun i => ?_
    rw [Quad.get_splat]
    exact hsame i 0 [] [] q q rfl hq hq

def wave : Build := .define ⟨"wave", ["x"], .call "sin" [.call "*" [.var "x", .var "x"]]⟩

def powerOfWave : Build :=
  .exportExpression (.call "pow" [.call "wave" [.var "y"], .var "z"]) ["y", "z"]

theorem exists_powerOfWave :
    ∃ r ∈ (Session.after {} ([wave] ++ [powerOfWave])).image,
      r.convention = .byAddress ∧ r.arity = 2 := by
  rw [after_concat]
  refine exists_mem_image_build _ powerOfWave ?_
  -- The lexicon says what compiles, so the code need not be looked at.
  rw [((interprets_new {}).after [wave]).known]
  decide

theorem compiled_lanewise_powerOfWave :
    ∃ r ∈ (Session.after {} ([wave] ++ [powerOfWave])).image, r.arity = 2 ∧
      ∃ g : List Lane → Lane, ∀ v w, ∃ q,
        (Session.after {} ([wave] ++ [powerOfWave])).applied? r [v, w] = some q ∧
          ∀ i, q.get i = g [v.get i, w.get i] := by
  obtain ⟨r, hr, -, harity⟩ := exists_powerOfWave
  obtain ⟨⟨g, hg⟩, -⟩ := compiled_lanewise _ ⟨{}, _, rfl⟩ r hr
  exact ⟨r, hr, harity, g, fun v w => hg [v, w] harity.symm⟩

end Session
end FourLane
