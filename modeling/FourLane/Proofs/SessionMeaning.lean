import FourLane.Proofs.History
import FourLane.Proofs.Simulation

/-!
# What the functions of a session compute

A session and a lexicon are built from the same requests, the one by compiling and the other
by giving meanings. The session interprets the lexicon at every moment: the same names are
defined for the same numbers of parameters, and the routine registered under a name computes
what the name means. Hence whatever is compiled next computes its meaning in that lexicon.
-/
namespace FourLane

/-- Only a definition changes what names mean. -/
def Lexicon.build (lexicon : Lexicon) : Build → Lexicon
  | .define d => lexicon.define d
  | .exportDefinition _ => lexicon
  | .exportExpression _ _ => lexicon

def Lexicon.after (lexicon : Lexicon) (builds : List Build) : Lexicon :=
  builds.foldl build lexicon

namespace Session

/-- The registered routines do what the names mean. -/
structure Interprets (s : Session) (lexicon : Lexicon) : Prop where
  numbered : s.image.Numbered
  next : s.next = s.image.next
  known : s.registry.known = lexicon.known
  total : lexicon.Total
  computes : ∀ name m entry, lexicon.lookup name = some m → s.registry.lookup name = some entry →
    entry.number < s.image.next ∧ ∀ vs v, vs.length = m.arity → m.apply vs = some v →
      s.image.run entry.number (vs.map .vector) = some (.vector v)

theorem interprets_new (settings : Settings) : Interprets { settings } [] where
  numbered := trivial
  next := rfl
  known := rfl
  total := fun _ _ h => by cases h
  computes := fun _ _ _ h => by cases h

theorem Interprets.realizes {s : Session} {lexicon : Lexicon} (h : s.Interprets lexicon) :
    Realizes s.image.run s.registry lexicon where
  elementary := s.image.run_elementary h.numbered
  defined := by
    intro head vs v hv
    obtain ⟨m, hm, hv⟩ := Option.bind_eq_some_iff.mp hv
    split_ifs at hv with hlen
    have hknown : s.registry.known head = some vs.length := by
      rw [h.known, Lexicon.known, hm, Option.map_some, hlen]
    obtain ⟨entry, hentry⟩ := Option.isSome_iff_exists.mp
      ((s.registry.resolve?_isSome_iff head vs.length).mpr hknown)
    have hlookup := ((s.registry.resolve?_eq_some_iff head vs.length entry).mp hentry).1
    exact ⟨entry, hentry, (h.computes head m entry hm hlookup).2 vs v hlen.symm hv⟩

theorem Interprets.install {s : Session} {lexicon : Lexicon} (h : s.Interprets lexicon)
    (name : String) (r : Routine) (hr : r.number = s.next) :
    (s.install name r).Interprets lexicon where
  numbered := ⟨hr.trans h.next, h.numbered⟩
  next := congrArg Nat.succ hr.symm
  known := h.known
  total := h.total
  computes := by
    intro name' m entry hm hentry
    obtain ⟨hlt, hrun⟩ := h.computes name' m entry hm hentry
    refine ⟨?_, fun vs v hlen hv => ?_⟩
    · have hnext := h.next
      change entry.number < r.number + 1
      omega
    · rw [← hrun vs v hlen hv]
      exact Image.run_append [r] s.image ⟨hr.trans h.next, h.numbered⟩ entry.number hlt _

theorem Interprets.compile {s : Session} {lexicon : Lexicon} (h : s.Interprets lexicon)
    (convention : Convention) (name : String) (params : List String) (body : Form) :
    (s.compile convention name params body).session.Interprets lexicon := by
  rcases s.compile_cases convention name params body with ⟨e, log, -, hs⟩ | ⟨r, log, hr, hs⟩
  · rw [hs]
    exact h
  · rw [hs]
    exact h.install name r (Routine.fields_of_compile _ _ _ _ _ hr).1

theorem known_cons (registry : Registry) (lexicon : Lexicon) (name : String) (entry : Entry)
    (m : Meaning) (h : registry.known = lexicon.known) (harity : entry.arity = m.arity) :
    Registry.known ((name, entry) :: registry) = Lexicon.known ((name, m) :: lexicon) := by
  funext name'
  have htail := congrFun h name'
  simp only [Registry.known, Lexicon.known, List.lookup_cons] at htail ⊢
  cases name' == name with
  | true => simp [harity]
  | false => exact htail

theorem Interprets.define {s : Session} {lexicon : Lexicon} (h : s.Interprets lexicon)
    (d : Definition) : (s.define d).session.Interprets (lexicon.define d) := by
  have hfault := Routine.faultOf_compile_eq_none_iff s.registry s.next .byValue d.params
    d.body
  rw [h.known] at hfault
  rcases s.compile_cases .byValue d.name d.params d.body with ⟨e, log, hr, hs⟩ | ⟨r, log, hr, hs⟩
  · have hreject : ¬ Accepts lexicon.known d.params d.body := by
      rw [← hfault, hr]
      simp [Lowering.faultOf]
    rw [Session.define, hs, Lexicon.define, if_neg hreject]
    exact h
  · have haccept : Accepts lexicon.known d.params d.body := by
      rw [← hfault, hr]
      rfl
    have hinstall := h.install d.name r (Routine.fields_of_compile _ _ _ _ _ hr).1
    have htotal := lexicon.total_define h.total d
    rw [Session.define, hs]
    rw [Lexicon.define, if_pos haccept] at htotal ⊢
    refine ⟨hinstall.numbered, hinstall.next, known_cons _ _ _ _ _ h.known rfl, htotal, ?_⟩
    intro name m entry hm hentry
    simp only [List.lookup_cons] at hm hentry
    cases hname : name == d.name with
    | false =>
      rw [hname] at hm hentry
      exact hinstall.computes name m entry hm hentry
    | true =>
      rw [hname] at hm hentry
      obtain rfl := Option.some.inj hm
      obtain rfl := Option.some.inj hentry
      refine ⟨Nat.lt_succ_self r.number, fun vs v hlen hv => ?_⟩
      have happly := Routine.apply_of_compile hr h.realizes vs hlen v hv
      rwa [← Image.run_cons_self s.image r] at happly

theorem Interprets.build {s : Session} {lexicon : Lexicon} (h : s.Interprets lexicon) (b : Build) :
    (s.build b).Interprets (lexicon.build b) := by
  cases b with
  | define d => exact h.define d
  | exportDefinition d => exact h.compile .byAddress d.name d.params d.body
  | exportExpression body params => exact h.compile .byAddress _ params body

theorem Interprets.after {s : Session} {lexicon : Lexicon} (h : s.Interprets lexicon)
    (builds : List Build) : (s.after builds).Interprets (lexicon.after builds) := by
  induction builds generalizing s lexicon with
  | nil => exact h
  | cons b builds ih => exact ih (h.build b)

/-- What a session compiles has a meaning in the lexicon that it interprets, and the new
routine computes it. -/
theorem Interprets.computes_compiled {s : Session} {lexicon : Lexicon} (h : s.Interprets lexicon)
    {convention : Convention} {params : List String} {body : Form} {r : Routine} {log : List Event}
    (hr : Routine.compile s.registry s.next convention params body = (.ok r, log))
    (args : List Quad) (hargs : args.length = params.length) :
    ∃ q, body.meaning lexicon (params.zip args) = some q ∧
      match convention with
      | .byValue => Image.run (r :: s.image) r.number (args.map .vector) = some (.vector q)
      | .byAddress => Image.enter (r :: s.image) r.number args = some q := by
  have haccept := (Routine.compile_eq_ok _ _ _ _ _ hr).1
  rw [h.known] at haccept
  obtain ⟨q, hq⟩ := exists_meaning lexicon h.total (params.zip args) body haccept.2.2
  refine ⟨q, hq, ?_⟩
  cases convention with
  | byValue =>
    rw [Image.run_cons_self]
    exact Routine.apply_of_compile hr h.realizes args hargs q hq
  | byAddress =>
    rw [Image.enter_cons_self, Routine.enter_of_compile hr h.realizes args hargs .zero q hq]
    simp

/-- What is compiled computes its meaning, given what the names mean at that moment. -/
theorem compile_computes_meaning (settings : Settings) (builds : List Build)
    (convention : Convention) (name : String) (params : List String) (body : Form)
    (handle : Handle) (s : Session) (log : List Event)
    (hcompile : (Session.after { settings } builds).compile convention name params body =
      ⟨.ok handle, s, log⟩)
    (args : List Quad) (hargs : args.length = params.length) :
    ∃ q, body.meaning (Lexicon.after [] builds) (params.zip args) = some q ∧
      match convention with
      | .byValue => s.image.run handle.number (args.map .vector) = some (.vector q)
      | .byAddress => s.enter handle args = some q := by
  have h := (interprets_new settings).after builds
  rcases compile_cases _ convention name params body with ⟨e, log', -, hs⟩ | ⟨r, log', hr, hs⟩
  · cases hs.symm.trans hcompile
  · cases hs.symm.trans hcompile
    obtain ⟨q, hq, hrun⟩ := h.computes_compiled hr args hargs
    refine ⟨q, hq, ?_⟩
    cases convention with
    | byValue => exact hrun
    | byAddress =>
      rw [enter, if_pos hargs]
      exact hrun

def rebound : List Build :=
  [.define ⟨"sq", ["x"], .call "*" [.var "x", .var "x"]⟩,
   .define ⟨"f", ["x"], .call "+" [.call "sq" [.var "x"], .var "z"]⟩,
   .define ⟨"sq", ["x"], .var "x"⟩]

theorem compile_computes_meaning_rebound :
    ∃ q, (Form.call "f" [.var "y"]).meaning (Lexicon.after [] rebound)
        (["y"].zip [.splat (.infinite false)]) = some q ∧
      ((Session.after {} rebound).exportExpression (.call "f" [.var "y"]) ["y"]).session.enter
        ⟨8, 1⟩ [.splat (.infinite false)] = some q :=
  compile_computes_meaning {} rebound .byAddress "externalexpr" ["y"] _ ⟨8, 1⟩ _ _ rfl
    [.splat (.infinite false)] rfl

end Session
end FourLane
