import FourLane.Reading
import Mathlib.Tactic.Common

/-!
# The grammar of forms

A form is spelled by an atom, by a definition or by a call, and `Derives` says which tokens spell
which form. A reader accepts exactly these spellings. In one direction, it walks through a
spelling and delivers the form to the frame that waits for it. In the other, it stands between
two tokens for all those that it has taken: the ones that opened its frames, the outermost first,
and then the ones that belong to what it expects. What it finishes with is therefore spelled by
all that it has taken, the last token included.
-/
namespace FourLane

def IsParamName (text : String) : Prop :=
  ∃ c cs, text.toList = c :: cs ∧ (('a' ≤ c ∧ c ≤ 'z') ∨ ('A' ≤ c ∧ c ≤ 'Z'))

def definitionStart (name : String) (params : List String) : List Token :=
  [.openParen, .atom "def", .atom name, .openParen] ++ params.map .atom ++ [.closeParen]

mutual

/-- The tokens spell the form. -/
inductive Derives : List Token → Form → Prop
  | number {text : String} (h : (readNumber text.toList).isZero = false) :
    Derives [.atom text] (.number (readNumber text.toList))
  | var {text : String} (h : (readNumber text.toList).isZero = true) :
    Derives [.atom text] (.var text)
  | definition (name : String) {params : List String} {ts : List Token} {body : Form}
    (hparams : ∀ p ∈ params, IsParamName p) (hbody : Derives ts body) :
    Derives (definitionStart name params ++ ts ++ [.closeParen]) (.definition name params body)
  | call {head : String} {ts : List Token} {args : List Form} (hhead : head ≠ "def")
    (hargs : DerivesAll ts args) :
    Derives ([.openParen, .atom head] ++ ts ++ [.closeParen]) (.call head args)

inductive DerivesAll : List Token → List Form → Prop
  | nil : DerivesAll [] []
  | cons {ts us : List Token} {f : Form} {fs : List Form} (hform : Derives ts f)
    (hforms : DerivesAll us fs) : DerivesAll (ts ++ us) (f :: fs)

end

theorem Derives.atom (text : String) : Derives [.atom text] (.ofAtom text) := by
  rw [Form.ofAtom]
  cases h : (readNumber text.toList).isZero with
  | false => exact .number h
  | true => exact .var h

theorem DerivesAll.append {ts us : List Token} {fs gs : List Form} :
    DerivesAll ts fs → DerivesAll us gs → DerivesAll (ts ++ us) (fs ++ gs)
  | .nil, h => h
  | .cons hform hforms, h => by
    rw [List.append_assoc]
    exact .cons hform (hforms.append h)

theorem DerivesAll.single {ts : List Token} {f : Form} (h : Derives ts f) : DerivesAll ts [f] := by
  have hcons := DerivesAll.cons h .nil
  rwa [List.append_nil] at hcons

def Progress.run : Progress → List Token → Reading
  | .more r, ts => r.run ts
  | .finished result log, ts => ⟨result, ts, log.toList⟩

namespace Reader

theorem run_cons (r : Reader) (t : Token) (ts : List Token) :
    r.run (t :: ts) = (r.feed t).run ts := by
  rw [run]
  cases r.feed t <;> rfl

theorem feed_head (frames : List Frame) (log : Array Event) (text : String) :
    feed ⟨.head, frames, log⟩ (.atom text) =
      if text = "def" then .more ⟨.defName, frames, log⟩
      else .more ⟨.form, .call text [] :: frames, log⟩ := rfl

theorem feed_param (name : String) (params : List String) (frames : List Frame) (log : Array Event)
    (text : String) :
    feed ⟨.param name params, frames, log⟩ (.atom text) =
      if isParam text then .more ⟨.param name (text :: params), frames, log⟩
      else .finished (.error (.paramName text)) log := rfl

theorem isParam_iff (text : String) : isParam text = true ↔ IsParamName text := by
  unfold isParam IsParamName
  cases text.toList with
  | nil => simp
  | cons c cs =>
    have hletter : c.isAlpha = true ↔ ('a' ≤ c ∧ c ≤ 'z') ∨ ('A' ≤ c ∧ c ≤ 'Z') := by
      have hclass : c.isAlpha = (c.isUpper || c.isLower) := rfl
      have hupper : c.isUpper = decide ('A' ≤ c ∧ c ≤ 'Z') := rfl
      have hlower : c.isLower = (decide ('a' ≤ c) && decide (c ≤ 'z')) := rfl
      simp only [hclass, hupper, hlower, Bool.or_eq_true, Bool.and_eq_true, decide_eq_true_eq]
      exact or_comm
    rw [hletter]
    constructor
    · exact fun h => ⟨c, cs, rfl, h⟩
    · rintro ⟨c', cs', heq, h⟩
      cases heq
      exact h

/-! ### Reading a spelling -/

theorem run_params (name : String) (frames : List Frame) (log : Array Event) (rest : List Token)
    (params done : List String) (h : ∀ p ∈ params, IsParamName p) :
    run ⟨.param name done, frames, log⟩ (params.map .atom ++ .closeParen :: rest) =
      run ⟨.form, .body name (done.reverse ++ params) :: frames, log⟩ rest := by
  induction params generalizing done with
  | nil => simp [run_cons, feed, Progress.run]
  | cons p params ih =>
    have hp := (isParam_iff p).mpr (h p List.mem_cons_self)
    have hrest := ih (p :: done) fun q hq => h q (List.mem_cons_of_mem p hq)
    rw [List.map_cons, List.cons_append, run_cons, feed_param, if_pos hp, Progress.run, hrest]
    simp

theorem run_definitionStart (frames : List Frame) (log : Array Event) (name : String)
    (params : List String) (h : ∀ p ∈ params, IsParamName p) (rest : List Token) :
    run ⟨.form, frames, log⟩ (definitionStart name params ++ rest) =
      run ⟨.form, .body name params :: frames, log⟩ rest := by
  have hparams := run_params name frames log rest params [] h
  simpa [definitionStart, run_cons, feed, Progress.run] using hparams

end Reader

-- What is logged on the way depends on the spelling alone, and what follows it is not looked at.
mutual

theorem Derives.run : ∀ {ts : List Token} {f : Form}, Derives ts f → ∃ events, ∀ frames log rest,
    Reader.run ⟨.form, frames, log⟩ (ts ++ rest) =
      (Reader.deliver frames (log ++ events) f).run rest
  | _, _, .number h => ⟨#[], fun frames log rest => by
      simp [Reader.run_cons, Reader.feed, Form.ofAtom, h]⟩
  | _, _, .var h => ⟨#[], fun frames log rest => by
      simp [Reader.run_cons, Reader.feed, Form.ofAtom, h]⟩
  | _, _, @Derives.definition name params _ _ hparams hbody => by
    obtain ⟨events, hrun⟩ := hbody.run
    refine ⟨events ++ #[.definitionRead name params.length], fun frames log rest => ?_⟩
    rw [List.append_assoc, List.append_assoc, Reader.run_definitionStart _ _ _ _ hparams, hrun]
    simp [Reader.deliver, Progress.run, Reader.run_cons, Reader.feed]
  | _, _, .call hhead hargs => by
    obtain ⟨events, hrun⟩ := hargs.run
    refine ⟨events, fun frames log rest => ?_⟩
    simp [Reader.run_cons, Reader.feed, hhead, Progress.run, hrun]

theorem DerivesAll.run : ∀ {ts : List Token} {fs : List Form}, DerivesAll ts fs →
    ∃ events, ∀ head done frames log rest,
      Reader.run ⟨.form, .call head done :: frames, log⟩ (ts ++ rest) =
        Reader.run ⟨.form, .call head (fs.reverse ++ done) :: frames, log ++ events⟩ rest
  | _, _, .nil => ⟨#[], by simp⟩
  | _, _, .cons hform hforms => by
    obtain ⟨first, hfirst⟩ := hform.run
    obtain ⟨events, hrun⟩ := hforms.run
    refine ⟨first ++ events, fun head done frames log rest => ?_⟩
    rw [List.append_assoc, hfirst, Reader.deliver, Progress.run, hrun]
    simp [Array.append_assoc]

end

/-- A spelling at the start of the tokens is read, and what follows it is left. -/
theorem Derives.run_start {ts : List Token} {f : Form} (h : Derives ts f) :
    ∃ log, ∀ rest, ({} : Reader).run (ts ++ rest) = ⟨.ok f, rest, log⟩ := by
  obtain ⟨events, hrun⟩ := h.run
  exact ⟨_, fun rest => hrun [] #[] rest⟩

theorem Derives.unique {ts us rest rest' : List Token} {f g : Form} (hf : Derives ts f)
    (hg : Derives us g) (h : ts ++ rest = us ++ rest') : ts = us ∧ f = g := by
  obtain ⟨log, hrun⟩ := hf.run_start
  obtain ⟨log', hrun'⟩ := hg.run_start
  have hreading := (hrun rest).symm.trans (h ▸ hrun' rest')
  obtain ⟨hform, hrest, -⟩ := Reading.mk.injEq .. ▸ hreading
  subst hrest
  exact ⟨List.append_cancel_right h, Except.ok.inj hform⟩

/-! ### What a reader has taken -/

/-- The tokens that opened the frames, with the arguments that are complete. -/
inductive Opened : List Frame → List Token → Prop
  | nil : Opened [] []
  | call {head : String} {args : List Form} {frames : List Frame} {outer ts : List Token}
    (hframes : Opened frames outer) (hhead : head ≠ "def") (hargs : DerivesAll ts args.reverse) :
    Opened (.call head args :: frames) (outer ++ ([.openParen, .atom head] ++ ts))
  | body {name : String} {params : List String} {frames : List Frame} {outer : List Token}
    (hframes : Opened frames outer) (hparams : ∀ p ∈ params, IsParamName p) :
    Opened (.body name params :: frames) (outer ++ definitionStart name params)

/-- The tokens of a form that is begun, up to what is expected now. -/
inductive Begun : Expected → List Token → Prop
  | form : Begun .form []
  | head : Begun .head [.openParen]
  | defName : Begun .defName [.openParen, .atom "def"]
  | paramList (name : String) : Begun (.paramList name) [.openParen, .atom "def", .atom name]
  | param (name : String) (params : List String) (hparams : ∀ p ∈ params, IsParamName p) :
    Begun (.param name params)
      ([.openParen, .atom "def", .atom name, .openParen] ++ params.reverse.map .atom)
  | close {name : String} {params : List String} {ts : List Token} {body : Form}
    (hparams : ∀ p ∈ params, IsParamName p) (hbody : Derives ts body) :
    Begun (.close name params body) (definitionStart name params ++ ts)

def Reader.Took (r : Reader) (ts : List Token) : Prop :=
  ∃ outer inner, ts = outer ++ inner ∧ Opened r.frames outer ∧ Begun r.expected inner

def Progress.Took : Progress → List Token → Prop
  | .more r, ts => r.Took ts
  | .finished (.ok f) _, ts => Derives ts f
  | .finished (.error _) _, _ => True

namespace Reader

theorem took_nil : ({} : Reader).Took [] := ⟨[], [], rfl, .nil, .form⟩

theorem took_deliver (log : Array Event) {frames : List Frame} {outer ts : List Token} {f : Form}
    (hframes : Opened frames outer) (hform : Derives ts f) :
    (deliver frames log f).Took (outer ++ ts) := by
  cases hframes with
  | nil => exact hform
  | @call head args frames outer us hframes hhead hargs =>
    have hall : DerivesAll (us ++ ts) (f :: args).reverse := by
      rw [List.reverse_cons]
      exact hargs.append (.single hform)
    exact ⟨_, [], by simp, .call hframes hhead hall, .form⟩
  | body hframes hparams => exact ⟨_, _, List.append_assoc _ _ _, hframes, .close hparams hform⟩

theorem Took.feed {r : Reader} {ts : List Token} (h : r.Took ts) (t : Token) :
    (r.feed t).Took (ts ++ [t]) := by
  obtain ⟨expected, frames, log⟩ := r
  obtain ⟨outer, inner, rfl, hframes, hexpected⟩ := h
  rw [List.append_assoc]
  cases hexpected with
  | form =>
    cases t with
    | openParen => exact ⟨outer, _, rfl, hframes, .head⟩
    | closeParen =>
      -- Only a call can end here. A body is still missing, and outside there is nothing to end.
      cases hframes with
      | nil => trivial
      | call hframes hhead hargs =>
        have hcall := took_deliver log hframes (.call hhead hargs)
        rwa [← List.append_assoc] at hcall
      | body hframes hparams => trivial
    | atom text => exact took_deliver log hframes (.atom text)
    | endOfInput => trivial
  | head =>
    cases t with
    | openParen => trivial
    | closeParen => trivial
    | atom text =>
      by_cases hdef : text = "def"
      · subst hdef
        exact ⟨outer, _, rfl, hframes, .defName⟩
      · rw [feed_head, if_neg hdef]
        exact ⟨_, [], by simp, .call hframes hdef .nil, .form⟩
    | endOfInput => trivial
  | defName =>
    cases t with
    | openParen => trivial
    | closeParen => trivial
    | atom name => exact ⟨outer, _, rfl, hframes, .paramList name⟩
    | endOfInput => trivial
  | paramList name =>
    cases t with
    | openParen => exact ⟨outer, _, rfl, hframes, .param name [] (by simp)⟩
    | closeParen => trivial
    | atom text => trivial
    | endOfInput => trivial
  | param name params hparams =>
    cases t with
    | openParen => trivial
    | closeParen =>
      refine ⟨_, [], ?_, .body hframes (by simpa using hparams), .form⟩
      simp [definitionStart]
    | atom text =>
      by_cases htext : isParam text = true
      · rw [feed_param, if_pos htext]
        refine ⟨outer, _, ?_, hframes, .param name (text :: params) ?_⟩
        · simp
        · simpa using ⟨(isParam_iff text).mp htext, hparams⟩
      · rw [feed_param, if_neg htext]
        trivial
    | endOfInput => trivial
  | close hparams hbody =>
    cases t with
    | openParen => trivial
    | closeParen => exact took_deliver _ hframes (.definition _ hparams hbody)
    | atom text => trivial
    | endOfInput => trivial

/-- A run takes all tokens and wants more, or it finishes at one of them, whatever follows. -/
theorem Took.run_cases {r : Reader} {taken : List Token} (h : r.Took taken) (ts : List Token) :
    (∃ r' : Reader, r'.Took (taken ++ ts) ∧
        r.run ts = ⟨.error .unfinished, [], r'.log.toList⟩) ∨
      ∃ before t rest result log, ∃ r' : Reader, ts = before ++ t :: rest ∧
        r'.Took (taken ++ before) ∧ r'.feed t = .finished result log ∧
        ∀ more, r.run (before ++ t :: more) = ⟨result, more, log.toList⟩ := by
  induction ts generalizing r taken with
  | nil => exact .inl ⟨r, by simpa using h, rfl⟩
  | cons t ts ih =>
    cases hfeed : r.feed t with
    | finished result log =>
      refine .inr ⟨[], t, ts, result, log, r, rfl, by simpa using h, hfeed, fun more => ?_⟩
      rw [List.nil_append, run_cons, hfeed]
      rfl
    | more next =>
      have hnext : next.Took (taken ++ [t]) := by
        have hstep := h.feed t
        rwa [hfeed] at hstep
      have hrun (us : List Token) : r.run (t :: us) = next.run us := by
        rw [run_cons, hfeed]
        rfl
      rcases ih hnext with ⟨r', hr', heq⟩ | ⟨before, u, rest, result, log, r', rfl, hr', hend, heq⟩
      · exact .inl ⟨r', by simpa using hr', (hrun ts).trans heq⟩
      · exact .inr ⟨t :: before, u, rest, result, log, r', rfl, by simpa using hr', hend,
          fun more => (hrun _).trans (heq more)⟩

end Reader

/-- Reading accepts the spellings of forms and no other tokens, and there is one way to do so:
no tokens spell two forms, and no spelling is the beginning of another. -/
theorem read_iff_derives :
    (∀ (s : TokenStream) (form : Form) (rest : List Token),
        s.read.result = .ok form ∧ s.read.stream.toList = rest ↔
          ∃ ts, s.toList = ts ++ rest ∧ Derives ts form) ∧
      (∀ ts f g, Derives ts f → Derives ts g → f = g) ∧
        ∀ ts us f g, Derives ts f → Derives us g → ts <+: us → ts = us := by
  refine ⟨fun s form rest => ⟨?_, ?_⟩, ?_, ?_⟩
  · rintro ⟨hresult, rfl⟩
    rw [TokenStream.read] at hresult ⊢
    rcases Reader.took_nil.run_cases s.toList with
      ⟨r', -, hrun⟩ | ⟨before, t, rest, result, log, r', hsplit, htook, hfeed, hrun⟩
    · rw [hrun] at hresult
      cases hresult
    · rw [hsplit, hrun rest] at hresult ⊢
      obtain rfl : result = .ok form := hresult
      have hderives := htook.feed t
      rw [hfeed] at hderives
      exact ⟨before ++ [t], by simp [Reading.stream, TokenStream.toList], hderives⟩
  · rintro ⟨ts, hts, hform⟩
    obtain ⟨log, hrun⟩ := hform.run_start
    rw [TokenStream.read, hts, hrun]
    exact ⟨rfl, rfl⟩
  · intro ts f g hf hg
    exact (hf.unique hg (rfl : ts ++ [] = ts ++ [])).2
  · rintro ts us f g hf hg ⟨more, rfl⟩
    exact (hf.unique hg (List.append_nil _).symm).1

def nestedTokens : List Token :=
  [.openParen, .atom "f", .openParen, .atom "def", .atom "def", .openParen, .atom "x", .closeParen,
    .atom "x", .closeParen, .closeParen]

def nestedForm : Form := .call "f" [.definition "def" ["x"] (.var "x")]

theorem derives_nested : Derives nestedTokens nestedForm := by
  have hname : IsParamName "x" := ⟨'x', [], rfl, by decide⟩
  have hbody : Derives [.atom "x"] (.var "x") := .var (by decide)
  have hparams : ∀ p ∈ ["x"], IsParamName p := by simpa using hname
  have hdefinition := Derives.definition "def" hparams hbody
  exact .call (by decide) (.single hdefinition)

theorem read_iff_derives_nested :
    (TokenStream.mk none (nestedTokens ++ [.closeParen])).read.result = .ok nestedForm ∧
      (∀ g, Derives nestedTokens g → g = nestedForm) ∧
        ∀ us g, Derives us g → nestedTokens <+: us → nestedTokens = us :=
  ⟨((read_iff_derives.1 _ nestedForm [.closeParen]).mpr ⟨nestedTokens, rfl, derives_nested⟩).1,
    fun g hg => read_iff_derives.2.1 _ g _ hg derives_nested,
    fun us g hg => read_iff_derives.2.2 _ us _ g derives_nested hg⟩

end FourLane
