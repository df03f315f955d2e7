import FourLane.Proofs.Descent

/-!
# A token is given back only where there is room for it

Procedures that read by descent give tokens back to the stream, and between a token that is given
back and the next one that is taken nothing else happens to the stream. So there is always room, no
token gets lost or comes twice, and every query ends. A form that is found by asking for the next
one has used up a token at least, so there cannot be more of them than tokens.
-/
namespace FourLane

theorem Reader.rest_run_suffix (r : Reader) (ts : List Token) : (r.run ts).rest <:+ ts := by
  induction ts generalizing r with
  | nil => exact List.suffix_rfl
  | cons t ts ih =>
    rw [run_cons]
    cases r.feed t with
    | more next => exact (ih next).trans (List.suffix_cons t ts)
    | finished result log => exact List.suffix_cons t ts

/-- At least one token is used up. -/
theorem Reader.rest_run_cons_suffix (r : Reader) (t : Token) (ts : List Token) :
    (r.run (t :: ts)).rest <:+ ts := by
  rw [run_cons]
  cases r.feed t with
  | more next => exact next.rest_run_suffix ts
  | finished result log => exact List.suffix_rfl

def Finding.isNothing : Finding → Bool
  | .nothing => true
  | _ => false

namespace TokenStream

theorem readNext?_of_nil {s : TokenStream} (h : s.toList = []) : s.readNext? = none := by
  obtain ⟨front, pending⟩ := s
  cases front with
  | some t => cases h
  | none =>
    cases (show pending = [] from h)
    rfl

theorem exists_of_readNext? {s : TokenStream} {r : Reading} (h : s.readNext? = some r) :
    ∃ t ts, t ≠ .endOfInput ∧ s.toList = t :: (ts ++ r.stream.toList) := by
  by_cases hnext : s.next.1 = .endOfInput
  · rw [readNext?_of_end hnext] at h
    cases h
  · rw [readNext?_of_ne hnext] at h
    obtain rfl := Option.some.inj h
    have hlist := s.next_toList hnext
    obtain ⟨ts, hts⟩ := Reader.rest_run_cons_suffix {} s.next.1 s.next.2.toList
    refine ⟨s.next.1, ts, hnext, ?_⟩
    rw [hlist, ← hts, ← hlist]
    rfl

theorem afterForms_suffix (s : TokenStream) : s.afterForms.toList <:+ s.toList := by
  rw [afterForms]
  fun_induction readForms s with
  | case1 s hnext => exact List.suffix_rfl
  | case2 s r hnext e hresult =>
    obtain ⟨t, ts, -, hlist⟩ := exists_of_readNext? hnext
    exact ⟨t :: ts, hlist.symm⟩
  | case3 s r hnext f hresult ih =>
    obtain ⟨t, ts, -, hlist⟩ := exists_of_readNext? hnext
    rw [List.getLast?_cons]
    refine List.IsSuffix.trans ?_ ⟨t :: ts, hlist.symm⟩
    cases hlast : r.stream.readForms.getLast? with
    | none => exact List.suffix_rfl
    | some last =>
      rw [hlast] at ih
      exact ih

theorem serve_suffix (s : TokenStream) (q : Query) : (s.serve q).2.toList <:+ s.toList := by
  cases q with
  | form => exact Reader.rest_run_suffix {} s.toList
  | next =>
    rw [serve]
    cases hnext : s.readNext? with
    | none => exact List.suffix_rfl
    | some r =>
      obtain ⟨t, ts, -, hlist⟩ := exists_of_readNext? hnext
      exact ⟨t :: ts, hlist.symm⟩
  | all => exact s.afterForms_suffix

theorem serve_eq_nothing {s : TokenStream} {q : Query} (hend : .endOfInput ∉ s.toList)
    (h : (s.serve q).1 = .nothing) : s.toList = [] := by
  cases q with
  | form => cases h
  | all => cases h
  | next =>
    cases hlist : s.toList with
    | nil => rfl
    | cons t ts =>
      have hnext : s.next.1 ≠ .endOfInput := by
        intro hnext
        obtain ⟨front, pending⟩ := s
        cases front with
        | some u => exact hend (by simp [toList, ← hnext, next])
        | none =>
          cases pending with
          | nil => cases hlist
          | cons u us => exact hend (by simp [toList, ← hnext, next])
      rw [serve, readNext?_of_ne hnext] at h
      cases h

/-- Asking for the next form uses up a token for every form that is found. -/
theorem countP_serveAll_le (s : TokenStream) (qs : List Query) :
    ((qs.zip (s.serveAll qs).1).countP fun p => p.1 = .next ∧ p.2.isNothing = false) +
      (s.serveAll qs).2.toList.length ≤ s.toList.length := by
  induction qs generalizing s with
  | nil => simp [serveAll]
  | cons q qs ih =>
    have hrest := ih (s.serve q).2
    have hle := (s.serve_suffix q).length_le
    simp only [serveAll, List.zip_cons_cons, List.countP_cons]
    by_cases hfound : q = .next ∧ (s.serve q).1.isNothing = false
    · obtain ⟨rfl, hform⟩ := hfound
      have hlt : (s.serve .next).2.toList.length < s.toList.length := by
        rw [serve] at hform ⊢
        cases hnext : s.readNext? with
        | none =>
          rw [hnext] at hform
          cases hform
        | some r => exact length_readNext? hnext
      split_ifs <;> omega
    · rw [if_neg (by simpa using hfound)]
      omega

theorem nothing_of_nil {s : TokenStream} (h : s.toList = []) (qs : List Query) :
    ∀ p ∈ qs.zip (s.serveAll qs).1, p.1 = .next → p.2 = .nothing := by
  induction qs generalizing s with
  | nil => simp
  | cons q qs ih =>
    rw [serveAll, List.zip_cons_cons, List.forall_mem_cons]
    constructor
    · rintro rfl
      rw [serve, readNext?_of_nil h]
    · have hsuffix := s.serve_suffix q
      rw [h, List.suffix_nil] at hsuffix
      exact ih hsuffix

/-- Once there is no next form there is none for ever. -/
theorem pairwise_serveAll (s : TokenStream) (hend : .endOfInput ∉ s.toList) (qs : List Query) :
    (qs.zip (s.serveAll qs).1).Pairwise
      fun p p' => p.2 = .nothing → p'.1 = .next → p'.2 = .nothing := by
  induction qs generalizing s with
  | nil => exact .nil
  | cons q qs ih =>
    have hsuffix := s.serve_suffix q
    rw [serveAll, List.zip_cons_cons, List.pairwise_cons]
    refine ⟨fun p hp hnothing => ?_, ih _ fun hmem => hend (hsuffix.mem hmem)⟩
    have hnil := serve_eq_nothing hend hnothing
    rw [hnil, List.suffix_nil] at hsuffix
    exact nothing_of_nil hsuffix qs p hp

end TokenStream

namespace Descent

namespace State

variable {tokens : List Token} {st : State}

/-- What one step keeps is kept by any number of them, and each brings the machine nearer to its end. -/
theorem Sound.run (h : st.Sound tokens) (hend : .endOfInput ∉ tokens) (n : Nat) :
    (st.run n).Sound tokens ∧ (st.run n).outlook = st.outlook ∧
      ((st.run n).Finished ∨ (st.run n).potential + n ≤ st.potential) := by
  induction n generalizing st with
  | zero => exact ⟨h, rfl, .inr Nat.le.refl⟩
  | succ n ih =>
    rw [State.run]
    rcases h.finished_or_advances hend with hfinished | ⟨next, hstep, hnext, houtlook, hlt⟩
    · have hstep : st.step = none := by rw [step, hfinished.1, hfinished.2]
      rw [hstep]
      exact ⟨h, rfl, .inl hfinished⟩
    · rw [hstep]
      obtain ⟨hsound, hsame, hbound⟩ := ih hnext
      refine ⟨hsound, hsame.trans houtlook, hbound.imp_right fun hle => ?_⟩
      change (next.run n).potential + (n + 1) ≤ st.potential
      omega

theorem finished_of_potential_eq_zero (h : st.potential = 0) : st.Finished := by
  have hweight : st.stage.weight = 0 := by
    rw [potential] at h
    omega
  have hqueries : st.queries.length = 0 := by
    rw [potential] at h
    omega
  refine ⟨?_, List.length_eq_zero_iff.mp hqueries⟩
  cases hstage : st.stage with
  | idle => rfl
  | _ =>
    rw [hstage] at hweight
    cases hweight

theorem Finished.outlook_eq (h : st.Finished) : st.outlook = (st.findings, st.stream) := by
  simp [outlook, h.1, h.2, TokenStream.serveAll]

end State

theorem sound_start (text : String) (queries : List Query) :
    (start text queries).Sound (tokenize text.toList) := ⟨rfl, rfl⟩

/-- Whatever a stream is asked for, one query after the other and also after faults, a token is given
back only to a stream that has room, no token gets lost or comes twice, nothing is held back between
two queries, and all queries are served after a bounded number of steps, with what the readers find.
A next form that is found has used up a token, so there are no more of them than tokens, and once
there is none there is none for ever. -/
theorem pushback_disciplined (text : String) (queries : List Query) :
    (∀ n st, (start text queries).run n = st →
        (∀ job t r, st.stage = .giveBack job t r → st.stream.front = none) ∧
        (kept st.history).reverse ++ st.stream.toList = tokenize text.toList ∧
        (st.stage = .idle → st.stream.front = none)) ∧
      (∀ n st, (start text queries).run n = st →
        4 * queries.length + 3 * (tokenize text.toList).length ≤ n →
          st.Finished ∧ (st.findings, st.stream) = (TokenStream.ofString text).serveAll queries) ∧
      (∀ (s : TokenStream) (r : Reading), s.readNext? = some r →
        ∃ t ts, t ≠ .endOfInput ∧ s.toList = t :: (ts ++ r.stream.toList)) ∧
      ((queries.zip ((TokenStream.ofString text).serveAll queries).1).countP
        fun p => p.1 = .next ∧ p.2.isNothing = false) ≤ (tokenize text.toList).length ∧
      (queries.zip ((TokenStream.ofString text).serveAll queries).1).Pairwise
        fun p p' => p.2 = .nothing → p'.1 = .next → p'.2 = .nothing := by
  have hend := endOfInput_notMem_tokenize text.toList
  have hrun := (sound_start text queries).run hend
  refine ⟨?_, ?_, fun s r => TokenStream.exists_of_readNext?, ?_, ?_⟩
  · rintro n _ rfl
    obtain ⟨⟨hconserved, hfits⟩, -, -⟩ := hrun n
    refine ⟨fun job t r hstage => ?_, hconserved, fun hstage => ?_⟩
    · rw [hstage] at hfits
      exact hfits.1
    · rw [hstage] at hfits
      exact hfits
  · rintro n _ rfl hn
    obtain ⟨-, houtlook, hpotential⟩ := hrun n
    have hstart : (start text queries).potential =
        4 * queries.length + 3 * (tokenize text.toList).length := rfl
    have hfinished : ((start text queries).run n).Finished := by
      refine hpotential.elim id fun hle => State.finished_of_potential_eq_zero ?_
      omega
    rw [hfinished.outlook_eq] at houtlook
    exact ⟨hfinished, houtlook⟩
  · have hcount := (TokenStream.ofString text).countP_serveAll_le queries
    exact Nat.le_trans (Nat.le_add_right _ _) hcount
  · exact (TokenStream.ofString text).pairwise_serveAll hend queries

def strayBetween : String := "(f x) ) y"

theorem findings_strayBetween :
    ((start strayBetween [.next, .next, .all, .next]).run 34).findings =
      [.form (.ok (.call "f" [.var "x"])), .form (.error .strayClose), .forms (.ok [.var "y"]),
        .nothing] := rfl

/-- The first token of the first form is given back to a stream that holds none. The fault is one of
the findings, and those after it are found. -/
theorem pushback_disciplined_strayBetween :
    ((start strayBetween [.next, .next, .all, .next]).run 2).stage = .giveBack .next .openParen {} ∧
      ((start strayBetween [.next, .next, .all, .next]).run 2).stream.front = none ∧
      ((TokenStream.ofString strayBetween).serveAll [.next, .next, .all, .next]).1 =
        [.form (.ok (.call "f" [.var "x"])), .form (.error .strayClose), .forms (.ok [.var "y"]),
          .nothing] := by
  obtain ⟨hmoments, hend, -⟩ := pushback_disciplined strayBetween [.next, .next, .all, .next]
  obtain ⟨-, hserved⟩ := hend 34 _ rfl (by decide)
  refine ⟨rfl, (hmoments 2 _ rfl).1 .next .openParen {} rfl, ?_⟩
  rw [← hserved]
  exact findings_strayBetween

end Descent
end FourLane
