import FourLane.Code.Listing
import FourLane.Proofs.Execution

/-!
# Well-formed code

Code is judged without being run. Every value has a type: the entry gives the types of the
first ones, and each instruction gives one more, by the types of earlier values. Calls go
through imports, to elementary functions and to older routines that are called by value.
Memory is read at the entry and written at the exit of a routine that is called by address,
and nowhere else.

The machine stops at an operand of the wrong type. A single run to the end therefore shows
that all operands of a routine are of the right ones.
-/
namespace FourLane

/-- The type of what an instruction gives after values of the given types. -/
inductive Instr.HasType (imports : Array Import) (types : List Ty) : Instr → Ty → Prop
  | load {a : Nat} (ha : types[a]? = some .i64) : HasType imports types (.load a) .f32x4
  | const {x : Lane} : HasType imports types (.const x) .f32
  | splat {x : Nat} (hx : types[x]? = some .f32) : HasType imports types (.splat x) .f32x4
  | arith {op : Arithmetic} {l r : Nat} (hl : types[l]? = some .f32x4)
    (hr : types[r]? = some .f32x4) : HasType imports types (.arith op l r) .f32x4
  | sqrt {v : Nat} (hv : types[v]? = some .f32x4) : HasType imports types (.sqrt v) .f32x4
  | extract {v : Nat} {lane : Fin 4} (hv : types[v]? = some .f32x4) :
    HasType imports types (.extract v lane) .f32
  | insert {v x : Nat} {lane : Fin 4} (hv : types[v]? = some .f32x4)
    (hx : types[x]? = some .f32) : HasType imports types (.insert v x lane) .f32x4
  | call {callee : Nat} {args : List Nat} {i : Import} {ty : Ty} (hi : imports[callee]? = some i)
    (hargs : List.Forall₂ (fun a ty => types[a]? = some ty) args i.signature.params)
    (hty : i.signature.result = some ty) : HasType imports types (.call callee args) ty

namespace Routine

/-- The values of a routine by their types. Those of the entry are vectors, or pointers and
one more for the result; behind them each instruction gives the next one, from values in front
of it. -/
structure Typed (r : Routine) (types : List Ty) : Prop where
  size : types.length = r.entryCount + r.code.size
  entry : types.take r.entryCount = match r.convention with
    | .byValue => List.replicate r.arity .f32x4
    | .byAddress => List.replicate (r.arity + 1) .i64
  code : ∀ (k : Nat) (instr : Instr), r.code[k]? = some instr →
    ∃ ty, types[r.entryCount + k]? = some ty ∧
      instr.HasType r.imports (types.take (r.entryCount + k)) ty

/-- What a routine may call. -/
def MayCall (older : Image) (i : Import) : Prop :=
  (∃ e : Elementary, i = ⟨e.number, e.signature⟩) ∨
    ∃ callee ∈ older, callee.convention = .byValue ∧ i = ⟨callee.number, callee.signature⟩

/-- The loads of the arguments, in order. -/
def loads (r : Routine) : List Instr :=
  match r.convention with
  | .byValue => []
  | .byAddress => (List.range r.arity).map .load

/-- A routine returns its result, or stores it through the last pointer. -/
def ExitsWith (r : Routine) (result : Nat) : Prop :=
  match r.convention with
  | .byValue => r.exit = .ret result
  | .byAddress => r.exit = .store result r.arity

/-- A routine that may stand on top of older ones. -/
structure WellFormed (older : Image) (r : Routine) : Prop where
  number : r.number = older.next
  imports : ∀ i ∈ r.imports, MayCall older i
  typed : ∃ types result, r.Typed types ∧ types[result]? = some .f32x4 ∧ r.ExitsWith result
  memory : ∃ body, r.code.toList = r.loads ++ body ∧ ∀ instr ∈ body, ∀ a, instr ≠ .load a

end Routine

/-- Every routine is well formed on top of the older ones. -/
def Image.WellFormed : Image → Prop
  | [] => True
  | r :: older => r.WellFormed older ∧ WellFormed older

theorem Image.WellFormed.numbered {image : Image} (h : image.WellFormed) : image.Numbered := by
  induction image with
  | nil => trivial
  | cons r older ih => exact ⟨h.1.number, ih h.2⟩

/-- What is run under the targets of the imports takes and gives words of the types that their
signatures say. -/
def Honest (run : Nat → List Word → Option Word) (imports : Array Import) : Prop :=
  ∀ i ∈ imports, ∀ args w, run i.target args = some w →
    args.map Word.ty = i.signature.params ∧ i.signature.result = some w.ty

section Run

variable {run : Nat → List Word → Option Word} {imports : Array Import} {memory : Memory}

theorem Values.ty_getElem? {values : Values} {n : Nat} {w : Word} (h : values[n]? = some w) :
    (values.toList.map Word.ty)[n]? = some w.ty := by
  simp [h]

theorem Values.ty_of_vector? {values : Values} {n : Nat} {v : Quad} (h : values.vector? n = some v) :
    (values.toList.map Word.ty)[n]? = some .f32x4 :=
  Values.ty_getElem? ((values.vector?_eq_some_iff n v).mp h)

theorem Values.ty_of_scalar? {values : Values} {n : Nat} {x : Lane} (h : values.scalar? n = some x) :
    (values.toList.map Word.ty)[n]? = some .f32 :=
  Values.ty_getElem? ((values.scalar?_eq_some_iff n x).mp h)

theorem Values.ty_of_mapM (values : Values) (ns : List Nat) (ws : List Word)
    (h : ns.mapM (fun n => values[n]?) = some ws) :
    List.Forall₂ (fun n ty => (values.toList.map Word.ty)[n]? = some ty) ns (ws.map Word.ty) := by
  rw [mapM_eq_some_iff] at h
  rw [List.forall₂_map_right_iff]
  exact h.imp fun _ _ hw => Values.ty_getElem? hw

/-- An instruction that can be run is of the type of its result. -/
theorem Instr.hasType_of_eval (himports : Honest run imports) (values : Values) (instr : Instr)
    (w : Word) (h : instr.eval (callImported run imports) memory values = some w) :
    instr.HasType imports (values.toList.map Word.ty) w.ty := by
  cases instr with
  | load a =>
    obtain ⟨_, ha, _, -, rfl⟩ := by simpa [Instr.eval, Option.bind_eq_some_iff] using h
    exact .load (Values.ty_getElem? ((values.address?_eq_some_iff _ _).mp ha))
  | const x =>
    cases h
    exact .const
  | splat x =>
    obtain ⟨_, hx, rfl⟩ := by simpa [Instr.eval, Option.bind_eq_some_iff] using h
    exact .splat (Values.ty_of_scalar? hx)
  | arith op l r =>
    obtain ⟨_, hl, _, hr, rfl⟩ := by simpa [Instr.eval, Option.bind_eq_some_iff] using h
    exact .arith (Values.ty_of_vector? hl) (Values.ty_of_vector? hr)
  | sqrt v =>
    obtain ⟨_, hv, rfl⟩ := by simpa [Instr.eval, Option.bind_eq_some_iff] using h
    exact .sqrt (Values.ty_of_vector? hv)
  | extract v lane =>
    obtain ⟨_, hv, rfl⟩ := by simpa [Instr.eval, Option.bind_eq_some_iff] using h
    exact .extract (Values.ty_of_vector? hv)
  | insert v x lane =>
    obtain ⟨_, hv, _, hx, rfl⟩ := by simpa [Instr.eval, Option.bind_eq_some_iff] using h
    exact .insert (Values.ty_of_vector? hv) (Values.ty_of_scalar? hx)
  | call callee ns =>
    obtain ⟨ws, hws, hcall⟩ := Option.bind_eq_some_iff.mp h
    obtain ⟨i, hi, hw⟩ := Option.bind_eq_some_iff.mp hcall
    obtain ⟨hparams, hresult⟩ := himports i (Array.mem_of_getElem? hi) ws w hw
    refine .call hi ?_ hresult
    rw [← hparams]
    exact values.ty_of_mapM ns ws hws

/-- Code that is run to its end gives one value per instruction, each from those before. -/
theorem execute_steps (code : List Instr) (values values' : Values)
    (h : execute run imports memory code.toArray values = some values') :
    ∃ ws, values'.toList = values.toList ++ ws ∧ ws.length = code.length ∧
      ∀ (k : Nat) (instr : Instr), code[k]? = some instr → ∃ w, ws[k]? = some w ∧
        instr.eval (callImported run imports) memory (values.toList ++ ws.take k).toArray =
          some w := by
  induction code generalizing values with
  | nil =>
    cases h
    exact ⟨[], by simp, rfl, nofun⟩
  | cons first code ih =>
    obtain ⟨w, hw, hrest⟩ := (execute_cons_eq_some_iff run imports memory first code _ _).mp h
    obtain ⟨ws, hvalues, hlen, hsteps⟩ := ih (values.push w) hrest
    refine ⟨w :: ws, by simp [hvalues], by simp [hlen], fun k instr hk => ?_⟩
    cases k with
    | zero =>
      obtain rfl := Option.some.inj hk
      exact ⟨w, rfl, by simpa using hw⟩
    | succ k =>
      obtain ⟨w', hw', heval⟩ := hsteps k instr hk
      exact ⟨w', hw', by simpa using heval⟩

/-- The words of a run to the end have the types of a routine. -/
theorem Routine.typed_of_values (r : Routine) (himports : Honest run r.imports) (args : List Word)
    (values : Values) (h : r.values run memory args = some values) :
    r.Typed (values.toList.map Word.ty) := by
  have hargs := r.ty_of_values run memory args values h
  have hcount : r.entryCount = args.length := by
    rw [Routine.entryCount, ← hargs, List.length_map]
  rw [Routine.values_eq_execute run memory r args hargs] at h
  obtain ⟨ws, hvalues, hlen, hsteps⟩ := execute_steps r.code.toList args.toArray values h
  have hsize : ws.length = r.code.size := by rw [hlen, Array.length_toList]
  have htake (k : Nat) : ((args ++ ws).map Word.ty).take (r.entryCount + k) =
      (args ++ ws.take k).map Word.ty := by
    rw [hcount, ← List.map_take, List.take_length_add_append]
  rw [hvalues]
  refine ⟨?_, ?_, fun k instr hk => ?_⟩
  · rw [List.length_map, List.length_append, hcount, hsize]
  · have hfront : ((args ++ ws).map Word.ty).take r.entryCount = r.signature.params := by
      rw [← hargs]
      simpa using htake 0
    refine hfront.trans ?_
    rw [Routine.signature]
    cases r.convention <;> rfl
  · obtain ⟨w, hw, heval⟩ := hsteps k instr (by simpa using hk)
    refine ⟨w.ty, ?_, ?_⟩
    · rw [List.getElem?_map, hcount, List.getElem?_append_right (Nat.le_add_right _ _)]
      simp [hw]
    · rw [htake]
      exact Instr.hasType_of_eval himports _ instr w heval

end Run
end FourLane
