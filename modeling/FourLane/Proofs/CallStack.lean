import FourLane.Proofs.Execution
import Mathlib.Logic.Relation

/-!
# A machine with a stack of calls

`Image.run` lets a routine find its callees among the older routines only, so its runs end by
the way it is written. The machine of this module does not look at the order of the routines: it
goes instruction by instruction, finds the callee of a call by its number in the whole image,
and keeps the routines that wait for a result on a stack. Nothing in it keeps two routines from
calling each other forever. That its runs end follows from the numbers: where every callee has a
smaller number than its caller, a stack can only grow so far.

What `Image.run` computes is what the machine ends with, if routines have the numbers after
those of the ones below them.
-/
namespace FourLane

open Relation

structure Activation where
  routine : Routine
  memory : Memory
  values : Values
  rest : List Instr

namespace Activation

def receive (a : Activation) (w : Word) : Activation := { a with values := a.values.push w }

end Activation

def Routine.activate (r : Routine) (memory : Memory) (args : List Word) : Option Activation :=
  if args.map Word.ty = r.signature.params then some ⟨r, memory, args.toArray, r.code.toList⟩
  else none

/-- The routine that runs and those that wait, the innermost first; or how the run ended. -/
inductive Config where
  | running (top : Activation) (callers : List Activation)
  | returned (w : Word)
  | stored (memory : Memory)

namespace Config

def resume (w : Word) : List Activation → Config
  | [] => .returned w
  | caller :: callers => .running (caller.receive w) callers

/-- The exit of a routine. Only one that nobody waits for can store its result. -/
def leave (a : Activation) (callers : List Activation) : Option Config :=
  match a.routine.exit, callers with
  | .ret v, callers => a.values[v]?.map fun w => .resume w callers
  | .store v address, [] => do
    let v ← a.values.vector? v
    let slot ← a.values.address? address
    if slot < a.memory.length then some (.stored (a.memory.set slot v)) else none
  | .store _ _, _ :: _ => none

/-- One instruction of the routine on top. There is no next configuration at the end of a run,
nor at an operand that the instruction cannot have. -/
def step (image : Image) : Config → Option Config
  | .running top callers =>
    match top.rest with
    | [] => leave top callers
    | .call callee ns :: rest => do
      let args ← ns.mapM fun n => top.values[n]?
      let i ← top.routine.imports[callee]?
      match image.find? fun r => r.number = i.target with
      | some r => (r.activate [] args).map fun a => .running a ({ top with rest } :: callers)
      | none => (Image.run [] i.target args).map fun w =>
        .running (Activation.receive { top with rest } w) callers
    | instr :: rest =>
      (instr.eval (fun _ _ => none) top.memory top.values).map fun w =>
        .running (Activation.receive { top with rest } w) callers
  | .returned _ => none
  | .stored _ => none

def Step (image : Image) (c c' : Config) : Prop := c.step image = some c'

def Halts (image : Image) (c : Config) : Prop :=
  ∃ last, ReflTransGen (Step image) c last ∧ last.step image = none

/-- The vector that a run ended with, where the place for it is behind the given number of
arguments if it was stored. -/
def result? (count : Nat) : Config → Option Quad
  | .running _ _ => none
  | .returned w => w.vector?
  | .stored memory => memory[count]?

section Halting

variable {image : Image}

theorem leave_cases {a : Activation} {callers : List Activation} {c : Config}
    (h : leave a callers = some c) : (∃ w, c = .resume w callers) ∨ ∃ memory, c = .stored memory := by
  unfold leave at h
  split at h
  · obtain ⟨w, -, rfl⟩ := Option.map_eq_some_iff.mp h
    exact .inl ⟨w, rfl⟩
  · obtain ⟨v, -, h⟩ := Option.bind_eq_some_iff.mp h
    obtain ⟨slot, -, h⟩ := Option.bind_eq_some_iff.mp h
    exact .inr ⟨_, (Option.some.inj (Option.ite_none_right_eq_some.mp h).2).symm⟩
  · cases h

/-- What one step can do: leave the routine, go on behind an instruction, or enter a callee. -/
theorem step_cases {top : Activation} {callers : List Activation} {c : Config}
    (h : Step image (.running top callers) c) :
    (top.rest = [] ∧ ((∃ w, c = .resume w callers) ∨ ∃ memory, c = .stored memory)) ∨
      ∃ instr rest, top.rest = instr :: rest ∧
        ((∃ w, c = .running (Activation.receive { top with rest } w) callers) ∨
          ∃ i ∈ top.routine.imports, ∃ r ∈ image, r.number = i.target ∧ ∃ a : Activation,
            a.routine = r ∧ c = .running a ({ top with rest } :: callers)) := by
  rw [Step, step] at h
  split at h
  · exact .inl ⟨‹_›, leave_cases h⟩
  · rename_i callee ns rest hrest
    refine .inr ⟨_, rest, hrest, ?_⟩
    obtain ⟨args, -, h⟩ := Option.bind_eq_some_iff.mp h
    obtain ⟨i, hi, h⟩ := Option.bind_eq_some_iff.mp h
    split at h
    · rename_i r hr
      obtain ⟨a, ha, rfl⟩ := Option.map_eq_some_iff.mp h
      have hnumber : r.number = i.target := by simpa using List.find?_some hr
      rw [Routine.activate, Option.ite_none_right_eq_some] at ha
      refine .inr ⟨i, Array.mem_of_getElem? hi, r, List.mem_of_find?_eq_some hr, hnumber, a, ?_, rfl⟩
      rw [← Option.some.inj ha.2]
    · obtain ⟨w, -, rfl⟩ := Option.map_eq_some_iff.mp h
      exact .inl ⟨w, rfl⟩
  · rename_i instr rest _ hrest
    obtain ⟨w, -, rfl⟩ := Option.map_eq_some_iff.mp h
    exact .inr ⟨instr, rest, hrest, .inl ⟨w, rfl⟩⟩

theorem halts_of_step {c : Config} (h : ∀ c', Step image c c' → Halts image c') :
    Halts image c := by
  cases hc : c.step image with
  | none => exact ⟨c, .refl, hc⟩
  | some c' =>
    obtain ⟨last, hsteps, hlast⟩ := h c' hc
    exact ⟨last, .head hc hsteps, hlast⟩

end Halting

end Config

def Image.Descends (image : Image) : Prop :=
  ∀ r ∈ image, ∀ i ∈ r.imports, i.target < r.number

namespace Config

/-- A routine halts if whoever waits for its result does, whatever the result is. The induction
is on the number of the routine and, for each number, on the instructions that are left. -/
theorem halts_running {image : Image} (h : image.Descends) (top : Activation)
    (htop : top.routine ∈ image) (callers : List Activation)
    (hcallers : ∀ w, Halts image (.resume w callers)) : Halts image (.running top callers) := by
  induction hn : top.routine.number using Nat.strongRecOn generalizing top callers with
  | ind n ih =>
    induction hrest : top.rest generalizing top with
    | nil =>
      apply halts_of_step
      intro c hc
      rcases step_cases hc with ⟨-, ⟨w, rfl⟩ | ⟨memory, rfl⟩⟩ | ⟨instr, rest, heq, -⟩
      · exact hcallers w
      · exact ⟨.stored memory, .refl, rfl⟩
      · cases hrest.symm.trans heq
    | cons first rest ihrest =>
      apply halts_of_step
      intro c hc
      rcases step_cases hc with ⟨heq, -⟩ | ⟨instr, rest', heq, hnext⟩
      · cases hrest.symm.trans heq
      · obtain ⟨rfl, rfl⟩ := List.cons.inj (hrest.symm.trans heq)
        have hlater : ∀ w, Halts image (.running (Activation.receive { top with rest } w) callers) :=
          fun w => ihrest (Activation.receive { top with rest } w) htop hn rfl
        rcases hnext with ⟨w, rfl⟩ | ⟨i, hi, r, hr, hnumber, a, rfl, rfl⟩
        · exact hlater w
        · have hlt := h top.routine htop i hi
          exact ih a.routine.number (by omega) a hr _ hlater rfl

theorem halts_activate {image : Image} (h : image.Descends) (r : Routine) (hr : r ∈ image)
    (memory : Memory) (args : List Word) (a : Activation) (ha : r.activate memory args = some a) :
    Halts image (.running a []) := by
  rw [Routine.activate, Option.ite_none_right_eq_some] at ha
  obtain rfl := Option.some.inj ha.2
  exact halts_running h _ hr [] fun w => ⟨.returned w, .refl, rfl⟩

end Config

/-! ### What the machine ends with -/

namespace Image

theorem find?_number (newer : Image) (r : Routine) (older : Image)
    (h : Numbered (newer ++ r :: older)) :
    (newer ++ r :: older).find? (fun r' => r'.number = r.number) = some r := by
  induction newer with
  | nil => simp
  | cons top newer ih =>
    have hmem : r ∈ newer ++ r :: older := by simp
    have hlt := (number_lt_next (newer ++ r :: older) h.2 r hmem).2
    have htop : top.number = next (newer ++ r :: older) := h.1
    have hne : top.number ≠ r.number := by omega
    rw [List.cons_append, List.find?_cons_of_neg (by simpa using hne), ih h.2]

theorem find?_elementary (image : Image) (h : image.Numbered) (e : Elementary) :
    image.find? (fun r => r.number = e.number) = none := by
  rw [List.find?_eq_none]
  intro r hr
  have hfive := (image.number_lt_next h r hr).1
  have he : e.number < 5 := elementary_number_lt e
  have hne : r.number ≠ e.number := by omega
  simpa using hne

/-- A call of the number ends with the given word, whoever waits for it. -/
inductive Answers (image : Image) (number : Nat) (args : List Word) (w : Word) : Prop
  | routine (r : Routine) (a : Activation) (hr : image.find? (fun r => r.number = number) = some r)
    (ha : r.activate [] args = some a)
    (hsteps : ∀ callers, ReflTransGen (Config.Step image) (.running a callers) (.resume w callers))
  | elementary (hnone : image.find? (fun r => r.number = number) = none)
    (hw : run [] number args = some w)

end Image

namespace Config

variable {image : Image} {run : Nat → List Word → Option Word}

theorem steps_instr (hrun : ∀ number args w, run number args = some w → image.Answers number args w)
    (r : Routine) (memory : Memory) (values : Values) (instr : Instr) (rest : List Instr) (w : Word)
    (h : instr.eval (callImported run r.imports) memory values = some w)
    (callers : List Activation) :
    ReflTransGen (Step image) (.running ⟨r, memory, values, instr :: rest⟩ callers)
      (.running ⟨r, memory, values.push w, rest⟩ callers) := by
  cases instr with
  | call callee ns =>
    obtain ⟨args, hargs, hcall⟩ := Option.bind_eq_some_iff.mp h
    obtain ⟨i, hi, hw⟩ := Option.bind_eq_some_iff.mp hcall
    cases hrun i.target args w hw with
    | routine r' a hr' ha hsteps =>
      refine .head ?_ (hsteps (⟨r, memory, values, rest⟩ :: callers))
      simp [Step, step, hargs, hi, hr', ha]
    | elementary hnone hw =>
      refine .single ?_
      simp [Step, step, hargs, hi, hnone, hw, Activation.receive]
  | _ =>
    -- No other instruction asks for a callee.
    exact .single (congrArg (Option.map fun w =>
      Config.running ⟨r, memory, values.push w, rest⟩ callers) h)

theorem steps_code (hrun : ∀ number args w, run number args = some w → image.Answers number args w)
    (r : Routine) (memory : Memory) (code : List Instr) (values values' : Values)
    (h : execute run r.imports memory code.toArray values = some values')
    (callers : List Activation) :
    ReflTransGen (Step image) (.running ⟨r, memory, values, code⟩ callers)
      (.running ⟨r, memory, values', []⟩ callers) := by
  induction code generalizing values with
  | nil =>
    cases h
    exact .refl
  | cons instr code ih =>
    obtain ⟨w, hw, hrest⟩ := (execute_cons_eq_some_iff run r.imports memory instr code _ _).mp h
    exact (steps_instr hrun r memory values instr code w hw callers).trans (ih _ hrest)

theorem steps_values (hrun : ∀ number args w, run number args = some w → image.Answers number args w)
    (r : Routine) (memory : Memory) (args : List Word) (values : Values)
    (h : r.values run memory args = some values) :
    ∃ a, r.activate memory args = some a ∧ ∀ callers,
      ReflTransGen (Step image) (.running a callers) (.running ⟨r, memory, values, []⟩ callers) := by
  have hargs := r.ty_of_values run memory args values h
  rw [Routine.values_eq_execute run memory r args hargs] at h
  exact ⟨_, if_pos hargs, steps_code hrun r memory r.code.toList args.toArray values h⟩

end Config

namespace Image

theorem answers_of_run (newer older : Image) (h : Numbered (newer ++ older)) (number : Nat)
    (args : List Word) (w : Word) (hrun : older.run number args = some w) :
    Answers (newer ++ older) number args w := by
  induction older generalizing newer number args w with
  | nil =>
    rw [run] at hrun
    obtain ⟨e, he, -⟩ := Option.bind_eq_some_iff.mp hrun
    obtain rfl : number = e.number := by
      unfold Elementary.ofNumber? at he
      split at he <;> cases he <;> rfl
    exact .elementary (find?_elementary _ h e) hrun
  | cons r older ih =>
    have hsplit : newer ++ r :: older = (newer ++ [r]) ++ older := by simp
    have hbelow := fun number args w => ih (newer ++ [r]) (hsplit ▸ h) number args w
    rw [← hsplit] at hbelow
    rw [run] at hrun
    split_ifs at hrun with hnumber
    · obtain ⟨values, hvalues, hexit⟩ := Option.bind_eq_some_iff.mp hrun
      obtain ⟨a, ha, hsteps⟩ := Config.steps_values hbelow r [] args values hvalues
      refine .routine r a (hnumber ▸ find?_number newer r older h) ha fun callers => ?_
      refine (hsteps callers).tail ?_
      cases hr : r.exit with
      | ret v =>
        rw [hr] at hexit
        simp only at hexit
        simp [Config.Step, Config.step, Config.leave, hr, hexit]
      | store v address =>
        rw [hr] at hexit
        cases hexit
    · exact hbelow number args w hrun

theorem steps_of_enter (newer : Image) (r : Routine) (older : Image)
    (h : Numbered (newer ++ r :: older)) (memory memory' : Memory)
    (henter : r.enter older.run memory = some memory') :
    ∃ a, r.activate memory ((List.range memory.length).map .address) = some a ∧
      ReflTransGen (Config.Step (newer ++ r :: older)) (.running a []) (.stored memory') := by
  have hsplit : newer ++ r :: older = (newer ++ [r]) ++ older := by simp
  rw [hsplit] at h ⊢
  obtain ⟨values, hvalues, hexit⟩ := Option.bind_eq_some_iff.mp henter
  obtain ⟨a, ha, hsteps⟩ := Config.steps_values (answers_of_run (newer ++ [r]) older h) r memory _
    values hvalues
  refine ⟨a, ha, (hsteps []).tail ?_⟩
  cases hr : r.exit with
  | ret v =>
    rw [hr] at hexit
    cases hexit
  | store v address =>
    rw [hr] at hexit
    obtain ⟨q, hq, hexit⟩ := Option.bind_eq_some_iff.mp hexit
    obtain ⟨slot, hslot, hexit⟩ := Option.bind_eq_some_iff.mp hexit
    obtain ⟨hlt, rfl⟩ := by simpa using hexit
    simp [Config.Step, Config.step, Config.leave, hr, hq, hslot, hlt]

end Image
end FourLane
