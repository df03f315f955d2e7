import FourLane.Proofs.Deletion

/-!
# Independent definitions commute

Two definitions of different names, neither of which calls the other, can be made in either order.
Each has the same outcome as it has without the other, since it asks the registry for other names
only. Afterwards the two routines have each other's numbers, and the sessions are twins under the
renumbering that swaps these, so nothing that a client asks later tells the two orders apart.
-/
namespace FourLane

namespace Routine

variable {run run' : Nat → List Word → Option Word}

/-- What a routine gives depends on its imports and not on its own number. -/
theorem apply_congr (r : Routine) (number : Nat)
    (h : ∀ i ∈ r.imports, ∀ args, run i.target args = run' i.target args) (args : List Word) :
    ({ r with number } : Routine).apply run args = r.apply run' args := by
  have hcall : callImported run r.imports = callImported run' r.imports := by
    funext callee args
    rw [callImported, callImported]
    cases hi : r.imports[callee]? with
    | none => rfl
    | some i => exact h i (Array.mem_of_getElem? hi) args
  have hvalues : ({ r with number } : Routine).values run [] args = r.values run' [] args := by
    by_cases hargs : args.map Word.ty = r.signature.params
    · rw [values_eq_execute run' [] r args hargs, execute, ← hcall]
      exact values_eq_execute run [] { r with number } args hargs
    · rw [values, values, if_neg hargs]
      exact if_neg hargs
  rw [apply, apply, hvalues]

end Routine

theorem Image.run_cons (older : Image) (r : Routine) (n : Nat) (args : List Word) :
    run (r :: older) n args = if n = r.number then r.apply older.run args else older.run n args :=
  rfl

namespace Session

/-- The definition is of another name and is not called by that name. -/
structure Ignores (d e : Definition) : Prop where
  name : d.name ≠ e.name
  heads : e.name ∉ d.body.heads

variable {s : Session} {d e : Definition} {q r : Routine}

theorem lookup_extend_define (s : Session) (e : Definition) (q : Routine) (name : String) :
    (s.extend (.define e) q).registry.lookup name =
      if name = e.name then some ⟨q.number, e.arity⟩ else s.registry.lookup name := by
  change List.lookup name ((e.name, ⟨q.number, e.arity⟩) :: s.registry) = _
  rw [List.lookup_cons]
  by_cases hname : name = e.name
  · simp [hname]
  · simp [hname, beq_false_of_ne hname]

theorem listed_extend (s : Session) (b : Build) (r : Routine) :
    (s.extend b r).listing.drop s.listing.length =
      if s.settings.capture then [⟨b.name, r⟩] else [] := by
  rw [listing_extend, List.drop_left]

theorem Ignores.define_extend (h : Ignores d e) (s : Session) (q : Routine) :
    (∃ fault log, s.define d = ⟨.error fault, s, log⟩ ∧
        (s.extend (.define e) q).define d = ⟨.error fault, s.extend (.define e) q, log⟩) ∨
      ∃ r log log',
        Routine.compile s.registry s.next .byValue d.params d.body = (.ok r, log') ∧
          s.define d = ⟨.ok (), s.extend (.define d) r, log⟩ ∧
          (s.extend (.define e) q).define d =
            ⟨.ok (), (s.extend (.define e) q).extend (.define d) { r with number := s.next + 1 },
              log⟩ := by
  have hagree : (s.extend (.define e) q).registry.AgreeOn s.registry d.body := by
    refine Registry.agreeOn_of_lookup fun head hhead => ?_
    rw [lookup_extend_define, if_neg]
    rintro rfl
    exact h.heads hhead
  have harity : (s.extend (.define e) q).arity? d.name = s.arity? d.name := by
    rw [arity?, arity?, lookup_extend_define, if_neg h.name]
  have hcompile := (Routine.compile_congr (s.next + 1) .byValue d.params d.body hagree).trans
    (Routine.compile_number s.registry s.next (s.next + 1) .byValue d.params d.body)
  rcases s.define_cases d with ⟨fault, log, hr, hs⟩ | ⟨r, log, hr, hs⟩
  · rw [hr] at hcompile
    rcases (s.extend (.define e) q).define_cases d with ⟨fault', log', hr', hs'⟩ | ⟨r', log', hr', -⟩
    · cases hr'.symm.trans hcompile
      exact .inl ⟨fault, log, hs, hs'⟩
    · cases hr'.symm.trans hcompile
  · rw [hr] at hcompile
    rcases (s.extend (.define e) q).define_cases d with ⟨fault', log', hr', -⟩ | ⟨r', log', hr', hs'⟩
    · cases hr'.symm.trans hcompile
    · cases hr'.symm.trans hcompile
      rw [harity] at hs'
      exact .inr ⟨r, _, log, hr, hs, hs'⟩

/-- A routine does the same above a routine that is none of its own callees. -/
theorem Reachable.apply_above (hs : s.Reachable) {params : List String} {body : Form}
    {log : List Event}
    (hr : Routine.compile s.registry s.next .byValue params body = (.ok r, log))
    (hq : q.number = s.next) (number : Nat) (args : List Word) :
    ({ r with number } : Routine).apply (Image.run (q :: s.image)) args =
      r.apply s.image.run args := by
  obtain ⟨hwell, lexicon, hlexicon⟩ := hs.wellFormed
  refine r.apply_congr number (fun i hi args => ?_) args
  have hmay := (hlexicon.wellFormed_compile hwell hr).imports i hi
  have hlt := s.image.target_lt_next hs.numbered i hmay
  rw [← hs.next_eq] at hlt
  rw [Image.run_cons, if_neg (by omega)]

theorem Reachable.lookup_swapped (hs : s.Reachable) (hrn : r.number = s.next)
    (hqn : q.number = s.next) (hname : d.name ≠ e.name) (name : String) :
    ((s.extend (.define d) r).extend (.define e) { q with number := s.next + 1 }).registry.lookup
        name =
      (((s.extend (.define e) q).extend (.define d) { r with number := s.next + 1 }).registry.lookup
        name).map (Entry.renumber (Equiv.swap s.next (s.next + 1))) := by
  simp only [lookup_extend_define]
  by_cases hd : name = d.name
  · simp [hd, hname, Entry.renumber, hrn]
  · by_cases he : name = e.name
    · simp [he, hname.symm, Entry.renumber, hqn]
    · rw [if_neg he, if_neg hd, if_neg hd, if_neg he]
      cases hentry : s.registry.lookup name with
      | none => rfl
      | some entry =>
        have hlt := hs.number_lt_next name entry hentry
        rw [Option.map_some, Entry.renumber, Equiv.swap_apply_of_ne_of_ne (by omega) (by omega)]

theorem Reachable.run_swapped (hs : s.Reachable) {log log' : List Event}
    (hr : Routine.compile s.registry s.next .byValue d.params d.body = (.ok r, log))
    (hq : Routine.compile s.registry s.next .byValue e.params e.body = (.ok q, log'))
    (hrn : r.number = s.next) (hqn : q.number = s.next) (n : Nat) (args : List Word) :
    Image.run ({ q with number := s.next + 1 } :: r :: s.image)
        (Equiv.swap s.next (s.next + 1) n) args =
      Image.run ({ r with number := s.next + 1 } :: q :: s.image) n args := by
  by_cases hn : n = s.next
  · rw [hn, Equiv.swap_apply_left, Image.run_cons _ _ (s.next + 1), if_pos rfl,
      Image.run_cons _ _ s.next, if_neg (by simp), Image.run_cons, if_pos hqn.symm]
    exact hs.apply_above hq hrn _ args
  · by_cases hn' : n = s.next + 1
    · rw [hn', Equiv.swap_apply_right, Image.run_cons _ _ (s.next + 1), if_pos rfl,
        Image.run_cons _ _ s.next, if_neg (by simp), Image.run_cons, if_pos hrn.symm]
      exact (hs.apply_above hr hqn _ args).symm
    · rw [Equiv.swap_apply_of_ne_of_ne hn hn', Image.run_cons, Image.run_cons, Image.run_cons,
        Image.run_cons, if_neg hn', if_neg hn', if_neg (hrn ▸ hn), if_neg (hqn ▸ hn)]

/-- Both orders of two definitions give twins: their numbers are swapped. -/
theorem twin_swapped (hs : s.Reachable) {log log' : List Event}
    (hr : Routine.compile s.registry s.next .byValue d.params d.body = (.ok r, log))
    (hq : Routine.compile s.registry s.next .byValue e.params e.body = (.ok q, log'))
    (hname : d.name ≠ e.name) {t t' : Session} (ht : t.Reachable) (ht' : t'.Reachable)
    (heq : t = (s.extend (.define d) r).extend (.define e) { q with number := s.next + 1 })
    (heq' : t' = (s.extend (.define e) q).extend (.define d) { r with number := s.next + 1 }) :
    Twin (Equiv.swap s.next (s.next + 1)) t t' := by
  have hrn : r.number = s.next := (Routine.fields_of_compile _ _ _ _ _ hr).1
  have hqn : q.number = s.next := (Routine.fields_of_compile _ _ _ _ _ hq).1
  have hfive := s.image.five_le_next hs.numbered
  rw [← hs.next_eq] at hfive
  refine ⟨ht, ht', by rw [heq, heq']; rfl, ⟨Equiv.injective _, fun n hn => ?_⟩, ?_, fun k => ?_, ?_⟩
  · exact Equiv.swap_apply_of_ne_of_ne (by omega) (by omega)
  · rw [heq, heq']
    exact hs.lookup_swapped hrn hqn hname
  · have hnext : t.next = s.next + 2 := congrArg Session.next heq
    have hnext' : t'.next = s.next + 2 := congrArg Session.next heq'
    rw [hnext, hnext']
    exact Equiv.swap_apply_of_ne_of_ne (by omega) (by omega)
  · rw [heq, heq']
    exact hs.run_swapped hr hq hrn hqn

theorem twin_refl (hs : s.Reachable) : Twin id s s where
  reachable := hs
  reachable' := hs
  settings := rfl
  renumbering := ⟨Function.injective_id, fun _ _ => rfl⟩
  registry _ := Option.map_id.symm ▸ rfl
  next _ := rfl
  run _ _ := rfl

theorem twin_define_define (hs : s.Reachable) (hde : Ignores d e) (hed : Ignores e d) :
    ∃ σ, Twin σ ((s.define d).session.define e).session ((s.define e).session.define d).session := by
  have hreach (a b : Definition) : ((s.define a).session.define b).session.Reachable :=
    (hs.grows (s.grows_define a)).grows (grows_define _ b)
  rcases s.define_cases d with ⟨fault, log, hr, hd⟩ | ⟨r, log, hr, hd⟩
  · have hsame : ((s.define e).session.define d).session = (s.define e).session := by
      rcases s.define_cases e with ⟨fault', log', -, he⟩ | ⟨q, log', -, he⟩
      · rw [he, hd]
      · rcases hde.define_extend s q with ⟨_, _, -, hd'⟩ | ⟨_, _, _, hr', -, -⟩
        · rw [he, hd']
        · cases hr.symm.trans hr'
    rw [hsame, hd]
    exact ⟨id, twin_refl (hs.grows (s.grows_define e))⟩
  · rcases hed.define_extend s r with ⟨fault, log', he, he'⟩ | ⟨q, log', _, hq, he, he'⟩
    · have hreach₁ := hs.grows (s.grows_define d)
      rw [hd] at hreach₁
      rw [hd, he, he', hd]
      exact ⟨id, twin_refl hreach₁⟩
    · rcases hde.define_extend s q with ⟨_, _, hd₁, -⟩ | ⟨r', _, _, hr', -, hd'⟩
      · cases hd.symm.trans hd₁
      · cases hr.symm.trans hr'
        have heq := congrArg Outcome.session he'
        have heq' := congrArg Outcome.session hd'
        have ht := hreach d e
        have ht' := hreach e d
        rw [hd] at ht ⊢
        rw [he] at ht' ⊢
        exact ⟨_, twin_swapped hs hr hq hde.name ht ht' heq heq'⟩

end Session

def Step.define (d : Definition) : Step := .ask (.defineForm d) rfl

namespace Client

open Session (Ignores)

def after (c : Client) (script : List (Nat × Step)) : Client :=
  script.foldl (fun c line => c.next line.1 line.2) c

def Reachable (c : Client) : Prop := ∃ settings script, c = (start settings).after script

section Twin

variable {c c' : Client}

theorem Twin.kept_all (h : Twin (fun _ => true) c c') (label : Nat) (step : Step) :
    c.see step = c'.see step ∧
      Twin (fun _ => true) (c.next label step) (c'.next label step) := by
  refine h.kept label step ?_
  cases step with
  | ask request hr => trivial
  | call called args place => rfl
  | enter called args place => rfl

theorem Twin.observe_eq (h : Twin (fun _ => true) c c') (script : List (Nat × Step)) :
    c.observe script = c'.observe script := by
  induction script generalizing c c' with
  | nil => rfl
  | cons line script ih =>
    obtain ⟨hsee, hnext⟩ := h.kept_all line.1 line.2
    rw [observe, observe, hsee, ih hnext]

theorem Reachable.twin_self (h : c.Reachable) : Twin (fun _ => true) c c := by
  obtain ⟨settings, script, rfl⟩ := h
  have hafter (c : Client) (hc : Twin (fun _ => true) c c) :
      Twin (fun _ => true) (c.after script) (c.after script) := by
    induction script generalizing c with
    | nil => exact hc
    | cons line script ih => exact ih _ (hc.kept_all line.1 line.2).2
  exact hafter _ (twin_start _ settings)

end Twin

variable {d e : Definition}

theorem next_define (c : Client) (label : Nat) (d : Definition) :
    c.next label (.define d) =
      ⟨{ c.host with session := (c.host.session.define d).session }, c.held⟩ := by
  simp only [next, request?, Step.define, Host.serve, Host.reply]
  cases (c.host.session.define d).result <;> rfl

theorem see_define (c : Client) (d : Definition) :
    c.see (.define d) =
      ⟨some (match (c.host.session.define d).result with
          | .ok _ => .done
          | .error e => .failed e), (c.host.session.define d).log,
        ((c.host.session.define d).session.listing.drop c.host.session.listing.length).map
          Listed.anonymous⟩ := by
  simp only [see, request?, Step.define, Host.serve, Host.reply]
  cases (c.host.session.define d).result <;> rfl

theorem see_define_after (h : Ignores d e) (c : Client) (label : Nat) :
    (c.next label (.define e)).see (.define d) = c.see (.define d) := by
  rw [next_define]
  rcases c.host.session.define_cases e with ⟨fault, log, -, hs⟩ | ⟨q, log, -, hs⟩
  · rw [hs]
  · rw [hs, see_define, see_define]
    rcases h.define_extend c.host.session q with ⟨fault, log, hd, hd'⟩ | ⟨r, log, -, -, hd, hd'⟩
    · simp only [hd, hd', List.drop_length]
    · have hsettings : (c.host.session.extend (.define e) q).settings = c.host.session.settings := rfl
      simp only [hd, hd', Session.listed_extend, hsettings]
      split_ifs <;> rfl

/-- Definitions of different names that do not call each other can be made in either order. Each
has the same outcome, and what is asked afterwards is answered alike. -/
theorem definitions_commute (c : Client) (hc : c.Reachable) (d e : Definition)
    (hname : d.name ≠ e.name) (hd : e.name ∉ d.body.heads) (he : d.name ∉ e.body.heads)
    (label label' : Nat) :
    (c.next label' (.define e)).see (.define d) = c.see (.define d) ∧
      (c.next label (.define d)).see (.define e) = c.see (.define e) ∧
      ∀ script, ((c.next label (.define d)).next label' (.define e)).observe script =
        ((c.next label' (.define e)).next label (.define d)).observe script := by
  have hde : Ignores d e := ⟨hname, hd⟩
  have hed : Ignores e d := ⟨hname.symm, he⟩
  refine ⟨see_define_after hde c label', see_define_after hed c label, fun script => ?_⟩
  have hself := hc.twin_self
  have hsession := hself.reachable.session _ _ c.host.sessionAt?_epoch
  have hafter := hself.reachable.after [.defineForm d, .defineForm e]
  have hafter' := hself.reachable.after [.defineForm e, .defineForm d]
  rw [next_define, next_define, next_define, next_define]
  refine Twin.observe_eq ?_ script
  refine ⟨hafter, hafter', rfl, ?_, fun l hl => ?_⟩
  · exact Session.twin_define_define hsession hde hed
  · exact (hself.held l hl).imp fun ref ref' halike =>
      halike.keeps (c.host.sessionAt?_after [.defineForm d, .defineForm e])
        (c.host.sessionAt?_after [.defineForm e, .defineForm d]) hafter hafter'

def based : Client := (start {}).after [(0, .define ⟨"k", ["x"], .var "x"⟩)]

def outer : Definition := ⟨"f", ["x"], .call "k" [.var "x"]⟩

def inner : Definition := ⟨"sqrt", ["x", "y"], .call "k" [.var "y"]⟩

/-- Both are called, the function below them is replaced, and they are called again. -/
def bothCalled : List (Nat × Step) :=
  [(3, .ask (.exportExpressionForm (.call "f" [.call "sqrt" [.var "z", .var "x"]]) ["x"]) rfl),
    (4, .call 3 [.splat (.infinite true)]), (5, .define ⟨"k", ["x"], .var "z"⟩),
    (6, .call 3 [.splat (.infinite true)]), (7, .ask (.arity "sqrt") rfl)]

theorem definitions_commute_bothCalled :
    inner.name ∉ outer.body.heads ∧ outer.name ∉ inner.body.heads ∧
      ((based.next 1 (.define outer)).next 2 (.define inner)).observe bothCalled =
        ((based.next 2 (.define inner)).next 1 (.define outer)).observe bothCalled := by
  have houter : inner.name ∉ outer.body.heads := by decide
  have hinner : outer.name ∉ inner.body.heads := by decide
  have h := definitions_commute based ⟨_, _, rfl⟩ outer inner (by decide) houter hinner 1 2
  exact ⟨houter, hinner, h.2.2 bothCalled⟩

end Client
end FourLane
