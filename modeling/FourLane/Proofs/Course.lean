import FourLane.Proofs.Builds
import FourLane.Proofs.LoweringLog

/-!
# Courses of builds

A `Course` moves from one session to another by builds that succeed, and logs a record for each of
them. Numbers, registry, listing and log are kept in different places. Along a course they stay in
step, and what the session holds in the end can be read off the builds.
-/
namespace FourLane

namespace Event

def isQuiet : Event → Bool
  | .compiled .. | .shadowed _ => false
  | _ => true

def isCompiled : Event → Bool
  | .compiled .. => true
  | _ => false

end Event

theorem isQuiet_of_mem_loggedBy (known : Known) (bound : List String) (nodes : List Form)
    (e : Event) (h : e ∈ loggedBy known bound nodes) : e.isQuiet := by
  obtain ⟨node, -, he⟩ := event?_of_mem_loggedBy known bound nodes e h
  cases node with
  | number x => cases he
  | var name =>
    rw [Form.event?, Option.ite_none_left_eq_some] at he
    cases he.2
    rfl
  | call head args =>
    rw [Form.event?, Option.ite_none_left_eq_some] at he
    cases he.2
    rfl
  | definition name params body =>
    cases he
    rfl

theorem Routine.isQuiet_of_compile (registry : Registry) (number : Nat) (convention : Convention)
    (params : List String) (body : Form) (result : Except CompileFault Routine) (log : List Event)
    (h : compile registry number convention params body = (result, log)) :
    ∀ e ∈ log, e.isQuiet := by
  intro e he
  have hlog := log_compile registry number convention params body
  rw [h] at hlog
  change log = _ at hlog
  rw [hlog] at he
  split at he
  · cases he
  · exact isQuiet_of_mem_loggedBy _ _ _ e he

namespace Build

def record (b : Build) : Event := .compiled b.name b.convention b.params.length

/-- It gives the name a meaning, if it succeeds. -/
def Registers (name : String) (b : Build) : Prop := b.convention = .byValue ∧ b.name = name

instance (name : String) : DecidablePred (Registers name) :=
  fun b => inferInstanceAs (Decidable (b.convention = .byValue ∧ b.name = name))

end Build

/-- What a listing says of a routine above its code, and its number. -/
def Listed.heading (l : Listed) : String × Nat × Convention × Nat :=
  (l.name, l.routine.number, l.routine.convention, l.routine.arity)

def Listed.record (l : Listed) : Event :=
  .compiled l.name l.routine.convention l.routine.arity

namespace Session

def records (s : Session) (b : Build) : List Event :=
  b.record ::
    if b.convention = .byValue ∧ (s.arity? b.name).isSome then [.shadowed b.name] else []

theorem records_cases (s : Session) (b : Build) :
    (s.records b = [b.record] ∧ ¬ (b.convention = .byValue ∧ (s.arity? b.name).isSome)) ∨
      s.records b = [b.record, .shadowed b.name] ∧
        b.convention = .byValue ∧ (s.arity? b.name).isSome := by
  rw [records]
  split_ifs with h
  · exact .inr ⟨rfl, h⟩
  · exact .inl ⟨rfl, h⟩

theorem attempt_ok {s : Session} {b : Build} {handle : Handle}
    (h : (s.attempt b).result = .ok handle) :
    handle = ⟨s.next, b.params.length⟩ ∧
      ∃ r, s.build b = s.extend b r ∧ r.number = s.next ∧ r.convention = b.convention ∧
        r.arity = b.params.length := by
  rcases s.build_cases b with ⟨e, log, -, hs, -⟩ | ⟨r, log, hr, hs, hbuild⟩
  · rw [hs] at h
    cases h
  · have hfields := Routine.fields_of_compile _ _ _ _ _ hr
    rw [hs] at h
    cases h
    exact ⟨by rw [hfields.1], r, hbuild, hfields⟩

/-- Builds that succeed, one after the other, and a log with their records. -/
inductive Course : Session → List Build → Session → List Event → Prop
  | done {s : Session} : Course s [] s []
  | other {s s' : Session} {builds : List Build} {log : List Event} {e : Event}
    (he : e.isQuiet) (h : Course s builds s' log) : Course s builds s' (e :: log)
  | success {s s' : Session} {b : Build} {builds : List Build} {log : List Event} {handle : Handle}
    (hb : (s.attempt b).result = .ok handle) (h : Course (s.build b) builds s' log) :
    Course s (b :: builds) s' (s.records b ++ log)

namespace Course

variable {s s' s'' : Session} {builds later : List Build} {log log' : List Event}

theorem trans (h : Course s builds s' log) (h' : Course s' later s'' log') :
    Course s (builds ++ later) s'' (log ++ log') := by
  induction h with
  | done => exact h'
  | other he _ ih => exact .other he (ih h')
  | success hb _ ih =>
    rw [List.append_assoc]
    exact .success hb (ih h')

theorem quiet (s : Session) (log : List Event) (h : ∀ e ∈ log, e.isQuiet) : Course s [] s log := by
  induction log with
  | nil => exact .done
  | cons e log ih =>
    rw [List.forall_mem_cons] at h
    exact .other h.1 (ih h.2)

theorem after_quiet (h : Course s builds s' log) (hlog : ∀ e ∈ log', e.isQuiet) :
    Course s builds s' (log' ++ log) := (quiet s log' hlog).trans h

theorem before_quiet (h : Course s builds s' log) (hlog : ∀ e ∈ log', e.isQuiet) :
    Course s builds s' (log ++ log') := by
  have hend := h.trans (quiet s' log' hlog)
  rwa [List.append_nil] at hend

/-! ### What a course leaves behind -/

theorem build_ok {b : Build} {handle : Handle} (h : (s.attempt b).result = .ok handle) :
    (s.build b).next = s.next + 1 ∧ (s.build b).settings = s.settings ∧
      ∀ name, (s.build b).arity? name =
        if b.Registers name then some b.params.length else s.arity? name := by
  obtain ⟨-, r, hbuild, -⟩ := attempt_ok h
  rw [hbuild]
  refine ⟨rfl, rfl, fun name => ?_⟩
  obtain hconvention | hconvention : b.convention = .byAddress ∨ b.convention = .byValue := by
    cases b.convention <;> simp
  · simp [arity?, extend, install, Build.entries, Build.Registers, hconvention]
  · by_cases hname : b.name = name
    · simp [arity?, extend, Build.entries, Build.Registers, hconvention, hname]
    · have hne : (name == b.name) = false := beq_eq_false_iff_ne.mpr (Ne.symm hname)
      simp [arity?, extend, install, Build.entries, Build.Registers, hconvention, hname,
        List.lookup_cons, hne]

theorem session_eq (h : Course s builds s' log) : s' = s.after builds := by
  induction h with
  | done => rfl
  | other _ _ ih => exact ih
  | success _ _ ih => exact ih

theorem numbers (h : Course s builds s' log) (k : Nat) (b : Build) (hk : builds[k]? = some b) :
    ((s.after (builds.take k)).attempt b).result =
      .ok ⟨s.next + k, b.params.length⟩ := by
  induction h generalizing k with
  | done => cases hk
  | other _ _ ih => exact ih k hk
  | success hb _ ih =>
    cases k with
    | zero =>
      cases hk
      exact hb.trans (congrArg Except.ok (attempt_ok hb).1)
    | succ k =>
      have hrest := ih k hk
      rw [(build_ok hb).1, Nat.add_right_comm] at hrest
      exact hrest

theorem arity?_eq (h : Course s builds s' log) (name : String) :
    s'.arity? name =
      ((builds.reverse.find? fun b => b.Registers name).map fun b => b.params.length).or
        (s.arity? name) := by
  induction h with
  | done => rfl
  | other _ _ ih => exact ih
  | @success s s' b builds log handle hb _ ih =>
    rw [ih, (build_ok hb).2.2 name, List.reverse_cons, List.find?_append]
    cases builds.reverse.find? fun b => b.Registers name with
    | some b' => rfl
    | none =>
      by_cases hname : b.Registers name
      · simp [hname]
      · simp [hname]

/-- A listing that is kept has the builds in order, with their numbers. -/
theorem listing_eq (h : Course s builds s' log) (hcapture : s.settings.capture) :
    s'.listing.map Listed.heading =
      s.listing.map Listed.heading ++
        builds.mapIdx fun k b => (b.name, s.next + k, b.convention, b.params.length) := by
  induction h with
  | done => simp
  | other _ _ ih => exact ih hcapture
  | @success s s' b builds log handle hb _ ih =>
    obtain ⟨-, r, hbuild, hnumber, hconvention, harity⟩ := attempt_ok hb
    have hrest := ih (by rw [(build_ok hb).2.1]; exact hcapture)
    have hlisting : (s.build b).listing = s.listing ++ [⟨b.name, r⟩] := by
      rw [hbuild]
      exact if_pos hcapture
    rw [(build_ok hb).1, hlisting] at hrest
    rw [hrest, List.mapIdx_cons]
    simp [Listed.heading, hnumber, hconvention, harity, Nat.add_assoc, Nat.add_comm 1]

theorem compiled_eq (h : Course s builds s' log) :
    log.filter Event.isCompiled = builds.map Build.record := by
  induction h with
  | done => rfl
  | @other s s' builds log e he _ ih =>
    have hnot : e.isCompiled = false := by cases e <;> first | rfl | cases he
    rw [List.filter_cons, hnot]
    exact ih
  | @success s s' b builds log handle _ _ ih =>
    rw [List.filter_append, ih, records, Build.record]
    split_ifs <;> rfl

/-- A record of shadowing stands behind that of a compilation, never first. -/
theorem head?_ne_shadowed (h : Course s builds s' log) (name : String) :
    log.head? ≠ some (.shadowed name) := by
  cases h with
  | done => simp
  | other he _ =>
    rintro heq
    cases heq
    cases he
  | success _ _ => simp [records, Build.record]

/-- What was recorded of a name before a point of the log says whether it has a meaning there. -/
theorem isSome_arity?_build {b : Build} {handle : Handle} (hb : (s.attempt b).result = .ok handle)
    (name : String) (before : List Event) :
    (((s.build b).arity? name).isSome ∨ ∃ m, .compiled name .byValue m ∈ before) ↔
      (s.arity? name).isSome ∨ ∃ m, .compiled name .byValue m ∈ s.records b ++ before := by
  have hrecords (m : Nat) : .compiled name .byValue m ∈ s.records b ↔
      .compiled name .byValue m = b.record := by
    rw [records]
    split_ifs <;> simp
  rw [(build_ok hb).2.2 name]
  by_cases hname : b.Registers name
  · have hrecord : b.record = .compiled name .byValue b.params.length := by
      rw [Build.record, hname.1, hname.2]
    have hmem : .compiled name .byValue b.params.length ∈ s.records b :=
      (hrecords _).mpr hrecord.symm
    rw [if_pos hname]
    exact ⟨fun _ => .inr ⟨_, List.mem_append_left before hmem⟩, fun _ => .inl rfl⟩
  · have hother (m : Nat) : .compiled name .byValue m ∉ s.records b := by
      rw [hrecords, Build.record]
      intro heq
      rw [Event.compiled.injEq] at heq
      exact hname ⟨heq.2.1.symm, heq.1.symm⟩
    simp [hname, hother]

theorem shadowed_iff (h : Course s builds s' log) (before after : List Event) (name : String)
    (convention : Convention) (n : Nat)
    (hlog : log = before ++ .compiled name convention n :: after) :
    after.head? = some (.shadowed name) ↔
      convention = .byValue ∧
        ((s.arity? name).isSome ∨ ∃ m, .compiled name .byValue m ∈ before) := by
  induction h generalizing before with
  | done => simp at hlog
  | @other s s' builds log e he _ ih =>
    cases before with
    | nil =>
      cases hlog
      cases he
    | cons e' before =>
      obtain ⟨heq, htail⟩ := List.cons.inj hlog
      subst heq
      have hne (m : Nat) : .compiled name .byValue m ≠ e := by
        rintro rfl
        cases he
      simp only [ih before htail, List.mem_cons, hne, false_or]
  | @success s s' b builds log handle hb hrest ih =>
    -- The point is at the record of this build, or behind all that was recorded of it.
    rcases s.records_cases b with ⟨hrecords, hshadow⟩ | ⟨hrecords, hshadow⟩
    · rw [hrecords] at hlog
      cases before with
      | nil =>
        obtain ⟨hrecord, hafter⟩ := List.cons.inj hlog
        rw [Build.record, Event.compiled.injEq] at hrecord
        obtain ⟨rfl, rfl, rfl⟩ := hrecord
        have hhead := hrest.head?_ne_shadowed b.name
        change log = after at hafter
        rw [hafter] at hhead
        simpa [hhead] using hshadow
      | cons e before =>
        obtain ⟨heq, htail⟩ := List.cons.inj hlog
        subst heq
        rw [ih before htail, isSome_arity?_build hb, hrecords]
        rfl
    · rw [hrecords] at hlog
      rcases before with _ | ⟨e, _ | ⟨e', before⟩⟩
      · obtain ⟨hrecord, hafter⟩ := List.cons.inj hlog
        rw [Build.record, Event.compiled.injEq] at hrecord
        obtain ⟨rfl, rfl, rfl⟩ := hrecord
        rw [← hafter]
        exact ⟨fun _ => ⟨hshadow.1, .inl hshadow.2⟩, fun _ => rfl⟩
      · cases (List.cons.inj (List.cons.inj hlog).2).1
      · obtain ⟨heq, htail⟩ := List.cons.inj hlog
        obtain ⟨heq', hrest'⟩ := List.cons.inj htail
        subst heq heq'
        rw [ih before hrest', isSome_arity?_build hb, hrecords]
        rfl

theorem compiled_of_shadowed (h : Course s builds s' log) (before after : List Event)
    (name : String) (hlog : log = before ++ .shadowed name :: after) :
    ∃ n, before.getLast? = some (.compiled name .byValue n) := by
  have hcons (e : Event) (before : List Event)
      (h : ∃ n, before.getLast? = some (.compiled name .byValue n)) :
      ∃ n, (e :: before).getLast? = some (.compiled name .byValue n) := by
    obtain ⟨n, hn⟩ := h
    exact ⟨n, by rw [List.getLast?_cons, hn]; rfl⟩
  induction h generalizing before with
  | done => simp at hlog
  | other he _ ih =>
    cases before with
    | nil =>
      cases hlog
      cases he
    | cons e before => exact hcons e before (ih before (List.cons.inj hlog).2)
  | @success s s' b builds log handle hb _ ih =>
    rcases s.records_cases b with ⟨hrecords, -⟩ | ⟨hrecords, hshadow⟩
    · rw [hrecords] at hlog
      cases before with
      | nil => cases (List.cons.inj hlog).1
      | cons e before => exact hcons e before (ih before (List.cons.inj hlog).2)
    · rw [hrecords] at hlog
      rcases before with _ | ⟨e, _ | ⟨e', before⟩⟩
      · cases (List.cons.inj hlog).1
      · obtain ⟨heq, htail⟩ := List.cons.inj hlog
        cases (List.cons.inj htail).1
        rw [← heq, Build.record, hshadow.1]
        exact ⟨_, rfl⟩
      · have htail := (List.cons.inj (List.cons.inj hlog).2).2
        exact hcons e _ (hcons e' before (ih before htail))

end Course

end Session
end FourLane
