import FourLane.Proofs.SourceText

/-!
# Reading by descent

`Reader.run` goes over a list of tokens and looks at each of them once. The machine of this module
takes its tokens from a stream, as procedures do that call each other. The procedure for calls takes
a token to see whether there is an argument, and gives it back before it calls the procedure for
forms, which takes it again. The one that reads a form only if there is any does the same. What the
procedures that wait know are the frames of the reader.

A token can be given back to a stream that has room for it only. Where there is none the machine
has no next step, and nothing in its definition keeps it from getting there. It never does, it comes
to an end, and what it finds until then is what `TokenStream.read`, `readNext?` and `readForms` find.
-/
namespace FourLane

/-- What can be asked of a stream: a form, the next form if any token is left, and all forms. -/
inductive Query where
  | form
  | next
  | all
deriving DecidableEq

inductive Finding where
  | form (result : Except ReadFault Form)
  | nothing
  | forms (result : Except ReadFault (List Form))

namespace TokenStream

def afterForms (s : TokenStream) : TokenStream :=
  (s.readForms.getLast?.map Reading.stream).getD s

def serve (s : TokenStream) : Query → Finding × TokenStream
  | .form => (.form s.read.result, s.read.stream)
  | .next =>
    match s.readNext? with
    | none => (.nothing, s)
    | some r => (.form r.result, r.stream)
  | .all => (.forms (Reading.forms s.readForms), s.afterForms)

/-- What is found by one query after the other, whatever the earlier ones found. -/
def serveAll (s : TokenStream) : List Query → List Finding × TokenStream
  | [] => ([], s)
  | q :: qs => ((s.serve q).1 :: ((s.serve q).2.serveAll qs).1, ((s.serve q).2.serveAll qs).2)

theorem readNext?_of_end {s : TokenStream} (h : s.next.1 = .endOfInput) : s.readNext? = none := by
  rw [readNext?]
  split
  · rfl
  · rename_i hne heq
    rw [heq] at h
    exact absurd h hne

theorem readNext?_of_ne {s : TokenStream} (h : s.next.1 ≠ .endOfInput) :
    s.readNext? = some s.read := by
  have hroom := s.front_next
  have hlist := s.next_toList h
  rw [readNext?]
  split
  · rename_i heq
    rw [heq] at h
    exact absurd rfl h
  · rename_i token s' hne heq
    rw [heq] at hroom hlist
    rw [read, toList_unread s' token hroom, ← hlist]
    rfl

end TokenStream

namespace Descent

/-- What a form is read for. Forms that were read before are kept last first. -/
inductive Job where
  | form
  | next
  | all (done : List Form)

inductive Stage where
  /-- No query is being served. -/
  | idle
  /-- A token is to be taken to see whether any is left. -/
  | first (job : Job)
  /-- A token is to be taken for the reader. -/
  | take (job : Job) (r : Reader)
  /-- A token is to be taken to see whether the innermost call ends. -/
  | argument (job : Job) (r : Reader)
  /-- The token is to be given back, and a form to be read. -/
  | giveBack (job : Job) (t : Token) (r : Reader)

inductive Access where
  | took (t : Token)
  | gaveBack (t : Token)

/-- The tokens that were taken and not given back, the last first. -/
def kept : List Access → List Token
  | [] => []
  | .took t :: history => if t = .endOfInput then kept history else t :: kept history
  | .gaveBack _ :: history => (kept history).tail

/-- The queries to come, the stream and where its reader stands. Accesses are kept last first. -/
structure State where
  queries : List Query
  stream : TokenStream
  stage : Stage := .idle
  findings : List Finding := []
  history : List Access := []

def inArguments (r : Reader) : Bool :=
  match r.expected, r.frames with
  | .form, .call _ _ :: _ => true
  | _, _ => false

/-- No form begins with a closing parenthesis, also where one would end a call. -/
def parse (r : Reader) (t : Token) : Progress :=
  match r.expected, t with
  | .form, .closeParen => .finished (.error .strayClose) r.log
  | _, _ => r.feed t

def firstStage : Query → Stage
  | .form => .take .form {}
  | .next => .first .next
  | .all => .first (.all [])

def Job.atEnd : Job → Finding
  | .all done => .forms (.ok done.reverse)
  | _ => .nothing

namespace State

def take (st : State) : State :=
  { st with stream := st.stream.next.2, history := .took st.stream.next.1 :: st.history }

def found (st : State) (finding : Finding) : State :=
  { st with stage := .idle, findings := st.findings ++ [finding] }

def conclude (st : State) (job : Job) (result : Except ReadFault Form) : State :=
  match job, result with
  | .all done, .ok f => { st with stage := .first (.all (f :: done)) }
  | .all _, .error e => st.found (.forms (.error e))
  | _, result => st.found (.form result)

def follow (st : State) (job : Job) : Progress → State
  | .more r => { st with stage := if inArguments r then .argument job r else .take job r }
  | .finished result _ => st.conclude job result

/-- One access to the stream, or the beginning of a query. -/
def step (st : State) : Option State :=
  match st.stage with
  | .idle =>
    match st.queries with
    | [] => none
    | q :: qs => some { st with queries := qs, stage := firstStage q }
  | .first job =>
    match st.stream.next.1 with
    | .endOfInput => some (st.take.found job.atEnd)
    | t => some { st.take with stage := .giveBack job t {} }
  | .take job r => some (st.take.follow job (parse r st.stream.next.1))
  | .argument job r =>
    match st.stream.next.1 with
    | .closeParen => some (st.take.follow job (r.feed .closeParen))
    | .endOfInput => some (st.take.follow job (r.feed .endOfInput))
    | t => some { st.take with stage := .giveBack job t r }
  | .giveBack job t r =>
    match st.stream.front with
    | none => some { st with
        stream := st.stream.unread t, stage := .take job r, history := .gaveBack t :: st.history }
    | some _ => none

def run (st : State) : Nat → State
  | 0 => st
  | n + 1 =>
    match st.step with
    | none => st
    | some next => next.run n

def Finished (st : State) : Prop := st.stage = .idle ∧ st.queries = []

end State

def start (text : String) (queries : List Query) : State :=
  { queries, stream := .ofString text }

/-! ### What is going to be found -/

namespace Job

def begin : Job → TokenStream → Finding × TokenStream
  | .all done, s => (.forms ((Reading.forms s.readForms).map (done.reverse ++ ·)), s.afterForms)
  | _, s => s.serve .next

def finish : Job → Reading → Finding × TokenStream
  | .all done, reading =>
    match reading.result with
    | .ok f => begin (.all (f :: done)) reading.stream
    | .error e => (.forms (.error e), reading.stream)
  | _, reading => (.form reading.result, reading.stream)

end Job

namespace State

def after (st : State) (outcome : Finding × TokenStream) : List Finding × TokenStream :=
  (st.findings ++ outcome.1 :: (outcome.2.serveAll st.queries).1, (outcome.2.serveAll st.queries).2)

/-- All findings in the end, if the readers do the rest. -/
def outlook (st : State) : List Finding × TokenStream :=
  match st.stage with
  | .idle => (st.findings ++ (st.stream.serveAll st.queries).1, (st.stream.serveAll st.queries).2)
  | .first job => st.after (job.begin st.stream)
  | .take job r => st.after (job.finish (r.run st.stream.toList))
  | .argument job r => st.after (job.finish (r.run st.stream.toList))
  | .giveBack job t r => st.after (job.finish (r.run (t :: st.stream.toList)))

end State

/-! ### One step -/

/-- What a stage relies on: there is room for the token that is to be given back, which was the
last to be taken, and a reader that is to take an argument gets the one that was given back. -/
def Stage.Fits (stream : TokenStream) (history : List Access) : Stage → Prop
  | .idle => stream.front = none
  | .first _ => stream.front = none
  | .take _ r => inArguments r → ∃ t, stream.front = some t ∧ t ≠ .closeParen
  | .argument _ r => stream.front = none ∧ inArguments r
  | .giveBack _ t r => stream.front = none ∧ t ≠ .endOfInput ∧
    history.head? = some (.took t) ∧ (inArguments r → t ≠ .closeParen)

/-- No token is lost and none is there twice. -/
structure State.Sound (tokens : List Token) (st : State) : Prop where
  conserved : (kept st.history).reverse ++ st.stream.toList = tokens
  fits : st.stage.Fits st.stream st.history

/-- How many steps a stage can take until the next token is used up. -/
def Stage.weight : Stage → Nat
  | .idle => 0
  | .first _ => 3
  | .take _ _ => 1
  | .argument _ _ => 3
  | .giveBack _ _ _ => 5

def State.potential (st : State) : Nat :=
  4 * st.queries.length + st.stage.weight + 3 * st.stream.toList.length

/-- There is a next state. It is sound, it leads to the same findings, and it is nearer to the end. -/
def State.Advances (tokens : List Token) (st : State) : Prop :=
  ∃ next, st.step = some next ∧ next.Sound tokens ∧ next.outlook = st.outlook ∧
    next.potential < st.potential

theorem feed_endOfInput (r : Reader) :
    r.feed .endOfInput = .finished (.error .unfinished) r.log := by
  obtain ⟨expected, frames, log⟩ := r
  cases expected <;> rfl

theorem run_toList (r : Reader) (s : TokenStream) :
    r.run s.toList = (r.feed s.next.1).run s.next.2.toList := by
  obtain ⟨front, pending⟩ := s
  cases front with
  | some t => exact r.run_cons t pending
  | none =>
    cases pending with
    | nil =>
      change r.run [] = (r.feed .endOfInput).run []
      rw [feed_endOfInput]
      rfl
    | cons t ts => exact r.run_cons t ts

theorem parse_eq_feed {r : Reader} {t : Token} (h : inArguments r → t ≠ .closeParen) :
    parse r t = r.feed t := by
  obtain ⟨expected, frames, log⟩ := r
  cases expected with
  | form =>
    cases t with
    | closeParen =>
      cases frames with
      | nil => rfl
      | cons frame frames =>
        cases frame with
        | call head args => exact absurd rfl (h rfl)
        | body name params => rfl
    | _ => rfl
  | _ => rfl

namespace Job

theorem begin_nil (job : Job) : job.begin ⟨none, []⟩ = (job.atEnd, ⟨none, []⟩) := by
  cases job with
  | form => rfl
  | next => rfl
  | all done =>
    rw [begin, TokenStream.afterForms, TokenStream.readForms_nil]
    simp [Reading.forms, Except.map, atEnd]

theorem begin_cons (job : Job) {t : Token} (ts : List Token) (ht : t ≠ .endOfInput) :
    job.begin ⟨none, t :: ts⟩ = job.finish (({} : Reader).run (t :: ts)) := by
  have hnext : TokenStream.readNext? ⟨none, t :: ts⟩ = some (({} : Reader).run (t :: ts)) :=
    TokenStream.readNext?_of_ne ht
  cases job with
  | form => simp only [begin, TokenStream.serve, hnext, finish]
  | next => simp only [begin, TokenStream.serve, hnext, finish]
  | all done =>
    rw [begin, finish, TokenStream.afterForms, TokenStream.readForms_cons t ts ht]
    generalize ({} : Reader).run (t :: ts) = reading
    cases hresult : reading.result with
    | error e => simp [Reading.forms, hresult, Except.map]
    | ok f =>
      simp only [Reading.forms, hresult, begin, TokenStream.afterForms, List.getLast?_cons]
      congr 1
      · cases Reading.forms reading.stream.readForms <;> simp [Except.map]
      · cases reading.stream.readForms.getLast? <;> rfl

end Job

namespace State

variable {tokens : List Token} {st : State}

/-- Between two accesses: all tokens are there, and a token can be given back. -/
structure Ready (tokens : List Token) (st : State) : Prop where
  conserved : (kept st.history).reverse ++ st.stream.toList = tokens
  room : st.stream.front = none

theorem Ready.found (h : st.Ready tokens) (finding : Finding) : (st.found finding).Sound tokens :=
  ⟨h.conserved, h.room⟩

theorem Ready.conclude (h : st.Ready tokens) (job : Job) (result : Except ReadFault Form) :
    (st.conclude job result).Sound tokens := by
  unfold State.conclude
  split
  · exact ⟨h.conserved, h.room⟩
  · exact h.found _
  · exact h.found _

theorem Ready.follow (h : st.Ready tokens) (job : Job) (p : Progress) :
    (st.follow job p).Sound tokens := by
  cases p with
  | finished result log => exact h.conclude job result
  | more r =>
    refine ⟨h.conserved, ?_⟩
    change (if inArguments r then Stage.argument job r else .take job r).Fits st.stream st.history
    split_ifs with hr
    · exact ⟨h.room, hr⟩
    · exact fun hin => absurd hin hr

theorem outlook_found (st : State) (finding : Finding) :
    (st.found finding).outlook = st.after (finding, st.stream) := by
  simp [found, outlook, after]

theorem outlook_conclude (h : st.stream.front = none) (job : Job) (result : Except ReadFault Form)
    (log : List Event) :
    (st.conclude job result).outlook = st.after (job.finish ⟨result, st.stream.toList, log⟩) := by
  have hstream : Reading.stream ⟨result, st.stream.toList, log⟩ = st.stream := by
    obtain ⟨queries, ⟨front, pending⟩, stage, findings, history⟩ := st
    cases h
    rfl
  cases job with
  | form =>
    change (st.found (.form result)).outlook = st.after (.form result, Reading.stream _)
    rw [hstream, outlook_found]
  | next =>
    change (st.found (.form result)).outlook = st.after (.form result, Reading.stream _)
    rw [hstream, outlook_found]
  | all done =>
    cases result with
    | ok f => rw [Job.finish, hstream]; rfl
    | error e => rw [Job.finish, hstream, conclude, outlook_found]

theorem outlook_follow (h : st.stream.front = none) (job : Job) (p : Progress) :
    (st.follow job p).outlook = st.after (job.finish (p.run st.stream.toList)) := by
  cases p with
  | finished result log => exact outlook_conclude h job result log.toList
  | more r =>
    rw [follow]
    split_ifs <;> rfl

theorem Sound.endOfInput_notMem (h : st.Sound tokens) (hend : .endOfInput ∉ tokens) :
    .endOfInput ∉ st.stream.toList := by
  intro hmem
  apply hend
  rw [← h.conserved]
  exact List.mem_append_right _ hmem

theorem next_cases (h : st.Sound tokens) (hend : .endOfInput ∉ tokens) :
    (st.stream.next.1 = .endOfInput ∧ st.stream = ⟨none, []⟩) ∨
      (st.stream.next.1 ≠ .endOfInput ∧
        st.stream.toList = st.stream.next.1 :: st.stream.next.2.toList) := by
  have hnotMem := h.endOfInput_notMem hend
  by_cases hnext : st.stream.next.1 = .endOfInput
  · refine .inl ⟨hnext, ?_⟩
    obtain ⟨queries, ⟨front, pending⟩, stage, findings, history⟩ := st
    cases front with
    | some t =>
      cases (show t = .endOfInput from hnext)
      exact absurd List.mem_cons_self hnotMem
    | none =>
      cases pending with
      | nil => rfl
      | cons t ts =>
        cases (show t = .endOfInput from hnext)
        exact absurd List.mem_cons_self hnotMem
  · exact .inr ⟨hnext, st.stream.next_toList hnext⟩

theorem Sound.ready_take (h : st.Sound tokens) (hend : .endOfInput ∉ tokens) :
    st.take.Ready tokens := by
  refine ⟨?_, st.stream.front_next⟩
  have hconserved := h.conserved
  change (kept (.took st.stream.next.1 :: st.history)).reverse ++ st.stream.next.2.toList = tokens
  rcases next_cases h hend with ⟨hnext, hstream⟩ | ⟨hnext, hlist⟩
  · rw [kept, if_pos hnext]
    rwa [hstream] at hconserved ⊢
  · rw [hlist] at hconserved
    rwa [kept, if_neg hnext, List.reverse_cons, List.append_assoc, List.singleton_append]

/-! ### Steps lead to the end -/

theorem potential_conclude_le (st : State) (job : Job) (result : Except ReadFault Form) :
    (st.conclude job result).potential ≤
      4 * st.queries.length + 3 + 3 * st.stream.toList.length := by
  unfold conclude
  split <;> simp [potential, found, Stage.weight]

theorem potential_follow_le (st : State) (job : Job) (p : Progress) :
    (st.follow job p).potential ≤ 4 * st.queries.length + 3 + 3 * st.stream.toList.length := by
  cases p with
  | finished result log => exact st.potential_conclude_le job result
  | more r =>
    rw [follow]
    split_ifs <;> simp [potential, Stage.weight]

theorem conclude_error (st : State) (job : Job) (e : ReadFault) :
    ∃ finding, st.conclude job (.error e) = st.found finding := by
  cases job <;> exact ⟨_, rfl⟩

/-- A reader that takes a token gets nearer to the end, and so it does if there is none. -/
theorem Sound.potential_follow_lt (h : st.Sound tokens) (hend : .endOfInput ∉ tokens) (job : Job)
    (r : Reader) (hweight : st.stage.weight ≠ 0) :
    (st.take.follow job (r.feed st.stream.next.1)).potential < st.potential := by
  rcases next_cases h hend with ⟨hnext, hstream⟩ | ⟨hnext, hlist⟩
  · obtain ⟨finding, hfound⟩ := st.take.conclude_error job .unfinished
    have hstay : st.stream.next.2 = st.stream := by
      rw [hstream]
      rfl
    rw [hnext, feed_endOfInput, follow, hfound]
    change 4 * st.queries.length + 0 + 3 * st.stream.next.2.toList.length < st.potential
    rw [hstay, potential]
    omega
  · have hle : _ ≤ 4 * st.queries.length + 3 + 3 * st.stream.next.2.toList.length :=
      st.take.potential_follow_le job (r.feed st.stream.next.1)
    have hlength := congrArg List.length hlist
    rw [List.length_cons] at hlength
    rw [potential.eq_def st, hlength]
    omega

theorem Sound.advances_idle (h : st.Sound tokens) (hstage : st.stage = .idle) {q : Query}
    {qs : List Query} (hqueries : st.queries = q :: qs) : st.Advances tokens := by
  have hfits := h.fits
  rw [hstage] at hfits
  refine ⟨{ st with queries := qs, stage := firstStage q }, ?_, ⟨h.conserved, ?_⟩, ?_, ?_⟩
  · rw [step, hstage, hqueries]
  · cases q with
    | form => exact fun hin => absurd hin (by decide)
    | next => exact hfits
    | all => exact hfits
  · simp only [outlook, hstage, hqueries, TokenStream.serveAll]
    cases q with
    | form => rfl
    | next => rfl
    | all =>
      have hnone (result : Except ReadFault (List Form)) : result.map ([] ++ ·) = result := by
        cases result <;> rfl
      simp only [firstStage, Job.begin, List.reverse_nil, hnone]
      rfl
  · rw [potential, potential, hstage, hqueries]
    cases q <;> simp only [firstStage, Stage.weight, List.length_cons] <;> omega

theorem Sound.advances_giveBack_of_next (h : st.Sound tokens) (hend : .endOfInput ∉ tokens)
    (job : Job) (r : Reader) (hnext : st.stream.next.1 ≠ .endOfInput)
    (hr : inArguments r → st.stream.next.1 ≠ .closeParen) (hweight : st.stage.weight = 3)
    (hstep : st.step = some { st.take with stage := .giveBack job st.stream.next.1 r })
    (houtlook : st.outlook = st.after (job.finish (r.run st.stream.toList))) :
    st.Advances tokens := by
  have hready := h.ready_take hend
  have hlist := st.stream.next_toList hnext
  refine ⟨_, hstep, ⟨hready.conserved, hready.room, hnext, rfl, hr⟩, ?_, ?_⟩
  · rw [houtlook, hlist]
    rfl
  · have hlength := congrArg List.length hlist
    rw [List.length_cons] at hlength
    change 4 * st.queries.length + 5 + 3 * st.stream.next.2.toList.length < st.potential
    rw [potential, hweight, hlength]
    omega

theorem Sound.advances_first (h : st.Sound tokens) (hend : .endOfInput ∉ tokens) {job : Job}
    (hstage : st.stage = .first job) : st.Advances tokens := by
  have hroom : st.stream.front = none := by
    have hfits := h.fits
    rwa [hstage] at hfits
  rcases next_cases h hend with ⟨hnext, hstream⟩ | ⟨hnext, hlist⟩
  · refine ⟨st.take.found job.atEnd, ?_, (h.ready_take hend).found _, ?_, ?_⟩
    · simp only [step, hstage, hnext]
    · rw [outlook_found]
      simp only [outlook, hstage, take, hstream, TokenStream.next, Job.begin_nil]
      rfl
    · simp only [potential, found, take, hstream, hstage, Stage.weight, TokenStream.next]
      omega
  · have hstream : st.stream = ⟨none, st.stream.next.1 :: st.stream.next.2.toList⟩ := by
      rw [← hlist]
      obtain ⟨queries, ⟨front, pending⟩, stage, findings, history⟩ := st
      cases hroom
      rfl
    apply h.advances_giveBack_of_next hend job {} hnext (fun hin => absurd hin (by decide))
    · rw [hstage]
      rfl
    · simp only [step, hstage]
    · simp only [outlook, hstage]
      rw [hlist, ← job.begin_cons _ hnext, ← hstream]

theorem Sound.advances_follow (h : st.Sound tokens) (hend : .endOfInput ∉ tokens) (job : Job)
    (r : Reader) (hweight : st.stage.weight ≠ 0)
    (hstep : st.step = some (st.take.follow job (r.feed st.stream.next.1)))
    (houtlook : st.outlook = st.after (job.finish (r.run st.stream.toList))) :
    st.Advances tokens := by
  refine ⟨_, hstep, (h.ready_take hend).follow job _, ?_, h.potential_follow_lt hend job r hweight⟩
  rw [outlook_follow st.stream.front_next, houtlook, run_toList]
  rfl

theorem Sound.advances_take (h : st.Sound tokens) (hend : .endOfInput ∉ tokens) {job : Job}
    {r : Reader} (hstage : st.stage = .take job r) : st.Advances tokens := by
  have hparse : parse r st.stream.next.1 = r.feed st.stream.next.1 := by
    apply parse_eq_feed
    intro hin
    have hfits := h.fits
    rw [hstage] at hfits
    obtain ⟨t, hfront, ht⟩ := hfits hin
    have hnext : st.stream.next.1 = t := by rw [TokenStream.next, hfront]
    rwa [hnext]
  apply h.advances_follow hend job r
  · simp [hstage, Stage.weight]
  · rw [step, hstage, ← hparse]
  · simp only [outlook, hstage]

theorem Sound.advances_argument (h : st.Sound tokens) (hend : .endOfInput ∉ tokens) {job : Job}
    {r : Reader} (hstage : st.stage = .argument job r) : st.Advances tokens := by
  have hweight : st.stage.weight = 3 := by rw [hstage]; rfl
  have houtlook : st.outlook = st.after (job.finish (r.run st.stream.toList)) := by
    simp only [outlook, hstage]
  cases hnext : st.stream.next.1 with
  | openParen =>
    apply h.advances_giveBack_of_next hend job r _ _ hweight _ houtlook
      <;> simp [step, hstage, hnext]
  | atom text =>
    apply h.advances_giveBack_of_next hend job r _ _ hweight _ houtlook
      <;> simp [step, hstage, hnext]
  | closeParen =>
    apply h.advances_follow hend job r _ _ houtlook <;> simp [step, hstage, hnext, Stage.weight]
  | endOfInput =>
    apply h.advances_follow hend job r _ _ houtlook <;> simp [step, hstage, hnext, Stage.weight]

theorem Sound.advances_giveBack (h : st.Sound tokens) {job : Job} {t : Token} {r : Reader}
    (hstage : st.stage = .giveBack job t r) : st.Advances tokens := by
  have hfits := h.fits
  rw [hstage] at hfits
  obtain ⟨hroom, ht, hlast, hr⟩ := hfits
  have hlist := st.stream.toList_unread t hroom
  refine ⟨{ st with
      stream := st.stream.unread t, stage := .take job r, history := .gaveBack t :: st.history },
    ?_, ⟨?_, fun hin => ⟨t, rfl, hr hin⟩⟩, ?_, ?_⟩
  · simp only [step, hstage, hroom]
  · obtain ⟨earlier, hhistory⟩ := List.head?_eq_some_iff.mp hlast
    have hconserved := h.conserved
    rw [hhistory, kept, if_neg ht, List.reverse_cons, List.append_assoc,
      List.singleton_append] at hconserved
    simpa only [hhistory, kept, if_neg ht, List.tail_cons, hlist] using hconserved
  · simp only [outlook, hstage, hlist]
    rfl
  · simp only [potential, hstage, Stage.weight, hlist, List.length_cons]
    omega

/-- The machine is not stuck before all queries are served. -/
theorem Sound.finished_or_advances (h : st.Sound tokens) (hend : .endOfInput ∉ tokens) :
    st.Finished ∨ st.Advances tokens := by
  cases hstage : st.stage with
  | idle =>
    cases hqueries : st.queries with
    | nil => exact .inl ⟨hstage, hqueries⟩
    | cons q qs => exact .inr (h.advances_idle hstage hqueries)
  | first job => exact .inr (h.advances_first hend hstage)
  | take job r => exact .inr (h.advances_take hend hstage)
  | argument job r => exact .inr (h.advances_argument hend hstage)
  | giveBack job t r => exact .inr (h.advances_giveBack hstage)

end State

end Descent
end FourLane
