import FourLane.Code.Machine
import Mathlib.Data.List.Forall2
import Mathlib.Tactic.Common

/-!
# Running code that grows

Code is run from the front, so what is appended to it does not change the values before,
and neither do imports that are appended. The same holds for the routines of an image:
each has the number after that of the one below it, so a routine that is added on top is
reached under no older number.
-/
namespace FourLane

theorem getElem?_push_of_some {α : Type} {xs : Array α} {n : Nat} {x : α} (h : xs[n]? = some x)
    (y : α) : (xs.push y)[n]? = some x := by
  have hlt : n < xs.size := (Array.getElem?_eq_some_iff.mp h).1
  rw [Array.getElem?_push_lt hlt, ← h, Array.getElem?_eq_getElem hlt]

theorem Word.vector?_eq_some_iff (w : Word) (v : Quad) : w.vector? = some v ↔ w = .vector v := by
  cases w <;> simp [Word.vector?]

theorem Word.scalar?_eq_some_iff (w : Word) (x : Lane) : w.scalar? = some x ↔ w = .scalar x := by
  cases w <;> simp [Word.scalar?]

theorem Word.address?_eq_some_iff (w : Word) (n : Nat) : w.address? = some n ↔ w = .address n := by
  cases w <;> simp [Word.address?]

theorem mapM_eq_some_iff {α β : Type} (f : α → Option β) (as : List α) (bs : List β) :
    as.mapM f = some bs ↔ List.Forall₂ (fun a b => f a = some b) as bs := by
  induction as generalizing bs with
  | nil => simp [eq_comm]
  | cons a as ih =>
    simp only [List.mapM_cons, Option.bind_eq_bind, Option.bind_eq_some_iff, Option.pure_def,
      Option.some.injEq, ih, List.forall₂_cons_left_iff]
    constructor
    · rintro ⟨b, hb, bs, hbs, rfl⟩
      exact ⟨b, bs, hb, hbs, rfl⟩
    · rintro ⟨b, bs, hb, hbs, rfl⟩
      exact ⟨b, hb, bs, hbs, rfl⟩

theorem Word.mapM_scalar?_eq_some_iff (ws : List Word) (xs : List Lane) :
    ws.mapM Word.scalar? = some xs ↔ ws = xs.map .scalar := by
  simp only [mapM_eq_some_iff, Word.scalar?_eq_some_iff]
  rw [← List.forall₂_eq_eq_eq, List.forall₂_map_right_iff]

namespace Values

theorem vector?_eq_some_iff (values : Values) (n : Nat) (v : Quad) :
    values.vector? n = some v ↔ values[n]? = some (.vector v) := by
  simp [vector?, Option.bind_eq_some_iff, Word.vector?_eq_some_iff]

theorem scalar?_eq_some_iff (values : Values) (n : Nat) (x : Lane) :
    values.scalar? n = some x ↔ values[n]? = some (.scalar x) := by
  simp [scalar?, Option.bind_eq_some_iff, Word.scalar?_eq_some_iff]

theorem address?_eq_some_iff (values : Values) (n slot : Nat) :
    values.address? n = some slot ↔ values[n]? = some (.address slot) := by
  simp [address?, Option.bind_eq_some_iff, Word.address?_eq_some_iff]

theorem mapM_getElem? {α : Type} (values : Values) (word : α → Word) (ns : List Nat) (xs : List α)
    (h : List.Forall₂ (fun n x => values[n]? = some (word x)) ns xs) :
    ns.mapM (fun n => values[n]?) = some (xs.map word) := by
  rwa [mapM_eq_some_iff, List.forall₂_map_right_iff]

end Values

/-- Runs the routine that is imported in a place. -/
def callImported (run : Nat → List Word → Option Word) (imports : Array Import) (callee : Nat)
    (args : List Word) : Option Word := do
  let imported ← imports[callee]?
  run imported.target args

/-- The given values, and behind them those of the code. -/
def execute (run : Nat → List Word → Option Word) (imports : Array Import) (memory : Memory)
    (code : Array Instr) (values : Values) : Option Values :=
  code.foldlM
    (fun values instr => values.push <$> instr.eval (callImported run imports) memory values) values

section Execute

variable (run : Nat → List Word → Option Word) (imports : Array Import) (memory : Memory)

theorem Routine.values_eq_execute (r : Routine) (args : List Word)
    (hargs : args.map Word.ty = r.signature.params) :
    r.values run memory args = execute run r.imports memory r.code args.toArray := by
  rw [Routine.values, if_pos hargs]
  rfl

theorem Routine.ty_of_values (r : Routine) (args : List Word) (values : Values)
    (h : r.values run memory args = some values) : args.map Word.ty = r.signature.params := by
  by_contra hne
  rw [Routine.values, if_neg hne] at h
  cases h

theorem execute_cons_eq_some_iff (first : Instr) (code : List Instr) (values values' : Values) :
    execute run imports memory (first :: code).toArray values = some values' ↔
      ∃ w, first.eval (callImported run imports) memory values = some w ∧
        execute run imports memory code.toArray (values.push w) = some values' := by
  simp only [execute, List.foldlM_toArray, List.foldlM_cons, Option.bind_eq_bind,
    Option.bind_eq_some_iff, Option.map_eq_map, Option.map_eq_some_iff]
  constructor
  · rintro ⟨_, ⟨w, hw, rfl⟩, hrest⟩
    exact ⟨w, hw, hrest⟩
  · rintro ⟨w, hw, hrest⟩
    exact ⟨_, ⟨w, hw, rfl⟩, hrest⟩

theorem execute_push (code : Array Instr) (instr : Instr) (values values' : Values) (w : Word)
    (h : execute run imports memory code values = some values')
    (hw : instr.eval (callImported run imports) memory values' = some w) :
    execute run imports memory (code.push instr) values = some (values'.push w) := by
  rw [execute] at h ⊢
  rw [Array.foldlM_push, h]
  simp [hw]

theorem Instr.eval_mono {call call' : Nat → List Word → Option Word}
    (hcall : ∀ k args w, call k args = some w → call' k args = some w) (values : Values)
    (instr : Instr) (w : Word) (h : instr.eval call memory values = some w) :
    instr.eval call' memory values = some w := by
  cases instr with
  | call callee args =>
    simp only [Instr.eval, Option.bind_eq_bind, Option.bind_eq_some_iff] at h ⊢
    obtain ⟨words, hwords, hw⟩ := h
    exact ⟨words, hwords, hcall _ _ _ hw⟩
  | _ => exact h

theorem callImported_push (i : Import) (k : Nat) (args : List Word) (w : Word)
    (h : callImported run imports k args = some w) :
    callImported run (imports.push i) k args = some w := by
  simp only [callImported, Option.bind_eq_bind, Option.bind_eq_some_iff] at h ⊢
  obtain ⟨j, hj, hw⟩ := h
  exact ⟨j, getElem?_push_of_some hj i, hw⟩

theorem foldlM_mono {α β : Type} {f g : β → α → Option β}
    (hfg : ∀ b a c, f b a = some c → g b a = some c) (l : List α) (b c : β)
    (h : l.foldlM f b = some c) : l.foldlM g b = some c := by
  induction l generalizing b with
  | nil => exact h
  | cons a l ih =>
    simp only [List.foldlM_cons, Option.bind_eq_bind, Option.bind_eq_some_iff] at h ⊢
    obtain ⟨b', hb', hc⟩ := h
    exact ⟨b', hfg _ _ _ hb', ih b' hc⟩

theorem execute_imports_push (i : Import) (code : Array Instr) (values values' : Values)
    (h : execute run imports memory code values = some values') :
    execute run (imports.push i) memory code values = some values' := by
  rw [execute, ← Array.foldlM_toList] at h ⊢
  refine foldlM_mono (fun b instr c hc => ?_) code.toList values values' h
  obtain ⟨w, hw, rfl⟩ := Option.map_eq_some_iff.mp hc
  exact Option.map_eq_some_iff.mpr
    ⟨w, Instr.eval_mono memory (callImported_push run imports i) b instr w hw, rfl⟩

end Execute

theorem Elementary.ofNumber?_number (e : Elementary) : ofNumber? e.number = some e := by
  cases e <;> rfl

namespace Image

/-- The number after the latest one. -/
def next : Image → Nat
  | [] => 5
  | r :: _ => r.number + 1

/-- Each routine has the number after the one below it. -/
def Numbered : Image → Prop
  | [] => True
  | r :: older => r.number = next older ∧ Numbered older

theorem five_le_next (image : Image) (h : image.Numbered) : 5 ≤ image.next := by
  induction image with
  | nil => exact Nat.le_refl 5
  | cons r older ih =>
    have hn := ih h.2
    have hr := h.1
    change 5 ≤ r.number + 1
    omega

theorem numbered_append (newer older : Image) (h : Numbered (newer ++ older)) :
    older.Numbered ∧ older.next ≤ next (newer ++ older) := by
  induction newer with
  | nil => exact ⟨h, Nat.le_refl _⟩
  | cons r newer ih =>
    obtain ⟨ho, hle⟩ := ih h.2
    have hr : r.number = next (newer ++ older) := h.1
    refine ⟨ho, ?_⟩
    change older.next ≤ r.number + 1
    omega

theorem number_lt_next (image : Image) (h : image.Numbered) (r : Routine) (hr : r ∈ image) :
    5 ≤ r.number ∧ r.number < image.next := by
  obtain ⟨newer, older, rfl⟩ := List.append_of_mem hr
  obtain ⟨ho, hle⟩ := numbered_append newer (r :: older) h
  have hfive := five_le_next older ho.2
  have hnum := ho.1
  change r.number + 1 ≤ _ at hle
  omega

/-- Routines on top of an image do not change what its own numbers do. -/
theorem run_append (newer older : Image) (h : Numbered (newer ++ older)) (number : Nat)
    (hn : number < older.next) (args : List Word) :
    run (newer ++ older) number args = run older number args := by
  induction newer with
  | nil => rfl
  | cons r newer ih =>
    obtain ⟨_, hle⟩ := numbered_append newer older h.2
    have hr : r.number = next (newer ++ older) := h.1
    have hne : number ≠ r.number := by omega
    rw [List.cons_append, run, if_neg hne, ih h.2]

theorem enter_append (newer older : Image) (h : Numbered (newer ++ older)) (number : Nat)
    (hn : number < older.next) (args : List Quad) :
    enter (newer ++ older) number args = enter older number args := by
  induction newer with
  | nil => rfl
  | cons r newer ih =>
    obtain ⟨_, hle⟩ := numbered_append newer older h.2
    have hr : r.number = next (newer ++ older) := h.1
    have hne : number ≠ r.number := by omega
    rw [List.cons_append, enter, if_neg hne, ih h.2]

theorem run_cons_self (older : Image) (r : Routine) (args : List Word) :
    run (r :: older) r.number args = r.apply older.run args := by
  rw [run, if_pos rfl]

theorem enter_cons_self (older : Image) (r : Routine) (args : List Quad) :
    enter (r :: older) r.number args =
      (r.enter older.run (args ++ [.zero])).bind fun memory => memory[args.length]? := by
  rw [enter, if_pos rfl]
  rfl

theorem elementary_number_lt (e : Elementary) : e.number < next [] := by
  cases e <;> decide

/-- The elementary functions are below every routine. -/
theorem run_elementary_eq (image : Image) (h : image.Numbered) (e : Elementary) (args : List Word) :
    image.run e.number args = run [] e.number args := by
  have happend := run_append image [] (by rwa [List.append_nil]) e.number (elementary_number_lt e)
    args
  rwa [List.append_nil] at happend

theorem run_elementary (image : Image) (h : image.Numbered) (e : Elementary) (xs : List Lane)
    (y : Lane) (hy : e.apply xs = some y) :
    image.run e.number (xs.map .scalar) = some (.scalar y) := by
  have hxs := (Word.mapM_scalar?_eq_some_iff _ xs).mpr rfl
  rw [image.run_elementary_eq h, run, Elementary.ofNumber?_number]
  simp only [Option.bind_eq_bind, Option.bind_some, hxs, hy]
  rfl

end Image
end FourLane
