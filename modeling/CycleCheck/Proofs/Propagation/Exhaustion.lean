import CycleCheck.Proofs.Propagation.Stability
import CycleCheck.Proofs.Propagation.Stalling

/-!
How passes end, for formulas of any kind. Every definition uses up an equality, and a pass without
definitions leaves only terms that a further pass would leave as they are. So there are at most two
passes more than equalities, and where propagation gives up nothing that is pending can be settled.
-/

namespace CycleCheck

mutual

/-- The number of equalities in a term. -/
def Term.equalities : Term → Nat
  | .app op _ args => (if op = .eq then 1 else 0) + Term.allEqualities args
  | _ => 0

def Term.allEqualities : List Term → Nat
  | [] => 0
  | t :: rest => t.equalities + Term.allEqualities rest

end

theorem Term.allEqualities_append (ts us : List Term) :
    Term.allEqualities (ts ++ us) = Term.allEqualities ts + Term.allEqualities us := by
  induction ts with
  | nil => simp [Term.allEqualities]
  | cons t rest ih => simp [Term.allEqualities, ih, Nat.add_assoc]

namespace Propagation

variable {s : State} {work : List Term} {p q r : Progress} {t a b : Term} {indices : List Numeral}

/-! ## Passes with their end -/

/-- How passes end: how many there were, the state and what is pending after the last one that was
completed, and the result. -/
structure Ending where
  passes : Nat
  state : State
  pending : List Term
  result : Except PropagationError Solution

/-- The same end after one more pass. -/
def Ending.next (e : Ending) : Ending := { e with passes := e.passes + 1 }

/-- Passes until nothing is pending or nothing changes, and how they end. -/
def ending (s : State) (work : List Term) : Ending :=
  if work.isEmpty then ⟨0, s, [], .ok (.sat s)⟩
  else
    match h : pass s work with
    | .error (.failed e) => ⟨1, s, work, .error e⟩
    | .error (.contradiction t) => ⟨1, s, work, .ok (.unsat t)⟩
    | .ok p =>
        if stuck : p.pending.size = work.length ∧ p.state.definitions = s.definitions then
          ⟨1, p.state, p.pending.toList,
            .error (.undetermined p.pending.size ((p.pending[0]?).elim "" quote))⟩
        else
          (ending p.state p.pending.toList).next
termination_by weightAll work
decreasing_by exact weightAll_pass_lt h stuck

theorem ending_nil (s : State) : ending s [] = ⟨0, s, [], .ok (.sat s)⟩ := by
  rw [ending, if_pos List.isEmpty_nil]

theorem ending_eq (h : ¬ work.isEmpty = true) :
    ending s work = match pass s work with
      | .error (.failed e) => ⟨1, s, work, .error e⟩
      | .error (.contradiction t) => ⟨1, s, work, .ok (.unsat t)⟩
      | .ok p =>
          if p.pending.size = work.length ∧ p.state.definitions = s.definitions then
            ⟨1, p.state, p.pending.toList,
              .error (.undetermined p.pending.size ((p.pending[0]?).elim "" quote))⟩
          else (ending p.state p.pending.toList).next := by
  rw [ending, if_neg h]
  split <;> simp_all

/-- The result at the end is the result of the passes. -/
theorem result_ending (s : State) (work : List Term) : (ending s work).result = passes s work := by
  induction s, work using passes.induct with
  | case1 s work hempty =>
    obtain rfl := List.isEmpty_iff.1 hempty
    rw [ending_nil, passes_nil]
  | case2 s work hempty e h | case3 s work hempty t h => rw [ending_eq hempty, passes_eq hempty, h]
  | case4 s work hempty p h stuck =>
    rw [ending_eq hempty, passes_eq hempty, h]
    simp only [if_pos stuck]
  | case5 s work hempty p h stuck ih =>
    rw [ending_eq hempty, passes_eq hempty, h]
    simp only [if_neg stuck]
    exact ih

/-- How the passes over the assertions of a formula end, if its declarations are in order. -/
def solveEnding (f : Formula) : Except PropagationError Ending := do
  let s ← declareAll f
  pure (ending s (assertedTerms f))

theorem solve_eq_solveEnding (f : Formula) : solve f = solveEnding f >>= Ending.result := by
  rw [solve, solveEnding]
  cases declareAll f with
  | error e => rfl
  | ok s => exact (result_ending s (assertedTerms f)).symm

/-! ## Errors of evaluation -/

/-- An error that does not come from a want of values. -/
def PropagationError.Conclusive (e : PropagationError) : Prop :=
  ∀ count first, e ≠ .undetermined count first

/-- A computation whose errors do not come from a want of values. -/
def Decisive {α : Type} (x : Except PropagationError α) : Prop :=
  ∀ e, x = .error e → e.Conclusive

namespace Decisive

variable {α β : Type}

theorem ok (a : α) : Decisive (.ok a : Except PropagationError α) := nofun

theorem error {e : PropagationError} (h : e.Conclusive) :
    Decisive (.error e : Except PropagationError α) := by
  rintro _ ⟨⟩
  exact h

theorem bind {x : Except PropagationError α} {f : α → Except PropagationError β}
    (hx : Decisive x) (hf : ∀ a, Decisive (f a)) : Decisive (x >>= f) := by
  cases x with
  | error e => exact .error (hx e rfl)
  | ok a => exact hf a

end Decisive

theorem decisive_constant (base : Nat) (digits : String) (width : Nat) :
    Decisive (constant base digits width) := by
  unfold constant
  split
  · exact .error nofun
  · exact .ok _

theorem State.decisive_symbol (s : State) (x : String) : Decisive (s.symbol x) := by
  unfold State.symbol
  split
  · exact .error nofun
  · split <;> exact .ok _
  · split <;> exact .ok _

theorem State.decisive_applyOp (s : State) (op : Op) (indices : List Numeral)
    (vals : List Value) : Decisive (s.applyOp op indices vals) := by
  have hstrict : Decisive (s.strict op indices vals) := by
    unfold State.strict
    split
    all_goals
      try dsimp only
      repeat' split
      all_goals first | exact .ok _ | exact .error nofun
  unfold State.applyOp
  split
  case h_5 =>
    split
    · exact hstrict
    · exact .ok _
  all_goals exact .ok _

theorem State.decisive_eval_and_evalAll (s : State) :
    (∀ t : Term, Decisive (s.eval t)) ∧ ∀ ts : List Term, Decisive (s.evalAll ts) := by
  refine State.eval.mutual_induct (fun t => Decisive (s.eval t))
    (fun ts => Decisive (s.evalAll ts))
    ?bool ?binary ?hex ?symbol ?numeral ?implies ?ite ?app ?nil ?cons
  case bool =>
    intro b
    exact .ok _
  case binary | hex =>
    intro digits
    exact decisive_constant _ _ _
  case symbol =>
    intro x
    exact s.decisive_symbol x.name
  case numeral =>
    intro n
    exact .error fun _ _ h => by cases h
  case implies =>
    intro indices a c iha ihc
    rw [State.eval]
    refine iha.bind fun va => ?_
    split
    · exact .ok _
    · refine ihc.bind fun vc => ?_
      split_ifs <;> exact .ok _
  case ite =>
    intro indices c a b ihc iha ihb
    rw [State.eval]
    refine ihc.bind fun vc => ?_
    split_ifs
    · exact iha
    · exact ihb
    · refine iha.bind fun va => ihb.bind fun vb => ?_
      split_ifs <;> exact .ok _
  case app =>
    intro op indices args _ _ ih
    rw [State.eval.eq_8 _ _ _ _ ‹_› ‹_›]
    exact ih.bind (s.decisive_applyOp op indices)
  case nil => exact .ok _
  case cons =>
    intro t rest iht ihrest
    rw [State.evalAll]
    exact iht.bind fun v => ihrest.bind fun vs => .ok _

theorem State.decisive_define (s : State) (a b : Term) : Decisive (s.define a b) := by
  have heval := s.decisive_eval_and_evalAll.1
  have hterm : ∀ target other : Term, Decisive (s.defineTerm target other) := by
    intro target other
    unfold State.defineTerm
    split
    · unfold State.defineSymbol
      split
      · exact .error nofun
      · split
        · exact .ok _
        · refine (heval other).bind fun v => ?_
          split <;> first | exact .ok _ | exact .error nofun
      · split
        · exact .ok _
        · refine (heval other).bind fun v => ?_
          split
          · exact .ok _
          · split <;> first | exact .ok _ | exact .error nofun
          · exact .error nofun
    · unfold State.defineSelect
      split
      · exact .error nofun
      · exact .error nofun
      · dsimp only
        split
        · exact .ok _
        · refine (heval _).bind fun i => ?_
          split_ifs
          · exact .ok _
          · exact .ok _
          · refine (heval other).bind fun v => ?_
            split
            · exact .ok _
            · split <;> first | exact .ok _ | exact .error nofun
            · exact .error nofun
    · exact .ok _
  refine (hterm a b).bind fun r => ?_
  split
  · exact .ok _
  · exact hterm b a

theorem Progress.conclusive_judge {e : PropagationError} (h : p.judge t = .error (.failed e)) :
    e.Conclusive := by
  unfold Progress.judge at h
  split at h
  · next he =>
    cases h
    exact p.state.decisive_eval_and_evalAll.1 t _ he
  · cases h
  · cases h
  · cases h
  · cases h
    nofun

/-- Settling a term does not give up for want of values: it leaves the term for later. -/
theorem Progress.conclusive_settle_and_settleAll :
    (∀ (p : Progress) (t : Term), ∀ e, p.settle t = .error (.failed e) → e.Conclusive) ∧
    ∀ (p : Progress) (ts : List Term), ∀ e, p.settleAll ts = .error (.failed e) →
      e.Conclusive := by
  refine Progress.settle.mutual_induct
    (fun p t => ∀ e, p.settle t = .error (.failed e) → e.Conclusive)
    (fun p ts => ∀ e, p.settleAll ts = .error (.failed e) → e.Conclusive)
    ?and ?failed ?waiting ?vacuous ?discharged ?eq ?other ?nil ?cons
  case and =>
    intro p indices args ih e h
    rw [Progress.settle] at h
    exact ih e h
  case failed =>
    intro p indices a c e' he e h
    rw [Progress.settle, he] at h
    cases h
    exact p.state.decisive_eval_and_evalAll.1 a _ he
  case waiting =>
    intro p indices a c v hv hk e h
    simp only [Progress.settle, hv, hk, if_true] at h
    cases h
  case vacuous =>
    intro p indices a c v hv hk hf e h
    simp only [Progress.settle, hv, hk, hf, if_true] at h
    cases h
  case discharged =>
    intro p indices a c v hv hk hf ih e h
    simp only [Progress.settle, hv, hk, hf] at h
    exact ih e h
  case eq =>
    intro p indices a b e h
    rw [Progress.settle, Progress.equate] at h
    split at h
    · next he =>
      cases h
      exact p.state.decisive_define a b _ he
    · cases h
    · exact Progress.conclusive_judge h
  case other =>
    intro p t h₁ h₂ h₃ e h
    rw [Progress.settle.eq_4 p t h₁ h₂ h₃] at h
    exact Progress.conclusive_judge h
  case nil =>
    intro p e h
    rw [Progress.settleAll] at h
    cases h
  case cons =>
    intro p t rest iht ihs e h
    rw [Progress.settleAll] at h
    cases hq : p.settle t with
    | error stop =>
      rw [hq] at h
      cases h
      exact iht e hq
    | ok q =>
      rw [hq] at h
      exact ihs q e h

theorem conclusive_pass {e : PropagationError} (h : pass s work = .error (.failed e)) :
    e.Conclusive := by
  rw [pass, ← Progress.settleAll_eq_foldlM] at h
  exact Progress.conclusive_settle_and_settleAll.2 _ _ e h

theorem decisive_declareAll (f : Formula) : Decisive (declareAll f) := by
  have hcommands : ∀ (f : Formula) (s : State), Decisive (f.foldlM State.declareCommand s) := by
    intro f
    induction f with
    | nil => exact fun s => .ok s
    | cons c rest ih =>
      intro s
      rw [List.foldlM_cons]
      refine Decisive.bind ?_ ih
      have hdeclare : ∀ x τ, Decisive (s.declare x τ) := by
        intro x τ
        unfold State.declare
        split
        · exact .error nofun
        · exact .ok _
      unfold State.declareCommand
      split
      · exact hdeclare _ _
      · exact hdeclare _ _
      · exact .ok _
  exact hcommands f {}

/-! ## What settling uses up and what it leaves -/

/-- Definitions that were made and equalities that are left. -/
def Progress.equalities (p : Progress) : Nat :=
  p.state.definitions + Term.allEqualities p.pending.toList

/-- Settling terms with some equalities makes no more definitions than it uses up, and if it makes
none, then what it leaves is idle. -/
structure Progress.Advances (p q : Progress) (equalities : Nat) : Prop where
  spent : q.equalities ≤ p.equalities + equalities
  idle : q.state = p.state → ∀ t ∈ q.pending.toList, t ∈ p.pending.toList ∨ p.state.Idle t

theorem Progress.equalities_postpone (p : Progress) (t : Term) :
    (p.postpone t).equalities = p.equalities + t.equalities := by
  simp [Progress.equalities, Progress.postpone, Term.allEqualities_append, Term.allEqualities,
    Nat.add_assoc]

theorem Progress.equalities_add (p : Progress) (d : Definition) :
    (p.add d).equalities = p.equalities + 1 := by
  have hcount : (p.state.add d).definitions = p.state.definitions + 1 := by cases d <;> rfl
  simp only [Progress.equalities, Progress.add, hcount]
  omega

namespace Progress.Advances

theorem self (p : Progress) (n : Nat) : p.Advances p n :=
  ⟨Nat.le_add_right _ _, fun _ _ => .inl⟩

theorem mono {m n : Nat} (h : p.Advances q m) (le : m ≤ n) : p.Advances q n :=
  ⟨h.spent.trans (Nat.add_le_add_left le _), h.idle⟩

theorem postpone (idle : p.state.Idle t) : p.Advances (p.postpone t) t.equalities := by
  refine ⟨(p.equalities_postpone t).le, fun _ u hu => ?_⟩
  simp only [Progress.postpone, Array.toList_push, List.mem_append, List.mem_singleton] at hu
  rcases hu with hu | rfl
  · exact .inl hu
  · exact .inr idle

theorem judge (judged : Judged t)
    (defines : ∀ indices a b, t = .app .eq indices [a, b] → p.state.define a b = .ok none)
    (h : p.judge t = .ok q) : p.Advances q t.equalities := by
  unfold Progress.judge at h
  split at h
  · cases h
  · next hv =>
    cases h
    exact .postpone (.judged judged hv defines)
  · cases h
    exact .self p _
  · cases h
  · cases h

/-- A definition uses up the equality that it is read off. -/
theorem equate (h : p.equate (.app .eq indices [a, b]) a b = .ok q) :
    p.Advances q (Term.app .eq indices [a, b]).equalities := by
  unfold Progress.equate at h
  split at h
  · cases h
  · next d _ =>
    cases h
    refine ⟨?_, fun _ _ => .inl⟩
    rw [p.equalities_add, Term.equalities, if_pos rfl]
    omega
  · next hnone =>
    refine .judge judged_eq (fun indices' a' b' heq => ?_) h
    cases heq
    exact hnone

theorem trans {m n : Nat} (h : p.Advances q m) (h' : q.Advances r n)
    (same : r.state = p.state → q.state = p.state) : p.Advances r (m + n) := by
  refine ⟨?_, fun hr t ht => ?_⟩
  · have := h.spent
    have := h'.spent
    omega
  · have hq := same hr
    rcases h'.idle (hr.trans hq.symm) t ht with ht | ht
    · exact h.idle hq t ht
    · exact .inr (hq ▸ ht)

end Progress.Advances

theorem Progress.advances_settle_and_settleAll :
    (∀ (p : Progress) (t : Term), ∀ q, p.settle t = .ok q → p.Advances q t.equalities) ∧
    ∀ (p : Progress) (ts : List Term), ∀ q, p.settleAll ts = .ok q →
      p.Advances q (Term.allEqualities ts) := by
  refine Progress.settle_induction ?and ?waiting ?vacuous ?discharged ?eq ?other ?nil ?cons
  case and =>
    intro p indices args q ih
    exact ih.mono (by rw [Term.equalities]; omega)
  case waiting =>
    intro p indices a c v hv hk
    exact .postpone (.implication hv hk)
  case vacuous =>
    intro p indices a c v _ _ _
    exact .self p _
  case discharged =>
    intro p indices a c v q _ _ _ ih
    refine ih.mono ?_
    simp only [Term.equalities, Term.allEqualities]
    omega
  case eq =>
    intro p indices a b q h
    exact .equate h
  case other =>
    intro p t q h₁ h₂ h₃ h
    exact .judge ⟨h₁, h₂⟩ (fun indices a b heq => (h₃ indices a b heq).elim) h
  case nil => exact fun p => .self p _
  case cons =>
    intro p t rest q r hq hr ih ihs
    exact ih.trans ihs (Progress.state_eq_of_settleAll hq hr)

/-! ## One pass -/

theorem advances_pass (h : pass s work = .ok p) :
    Progress.Advances { state := s } p (Term.allEqualities work) := by
  rw [pass, ← Progress.settleAll_eq_foldlM] at h
  exact Progress.advances_settle_and_settleAll.2 _ _ _ h

/-- Each definition of a pass leaves one equality less. -/
theorem equalities_pass (h : pass s work = .ok p) :
    p.state.definitions + Term.allEqualities p.pending.toList ≤
      s.definitions + Term.allEqualities work :=
  (advances_pass h).spent

/-- What a pass without definitions leaves is idle. -/
theorem idle_pass (h : pass s work = .ok p) (same : p.state = s) :
    ∀ t ∈ p.pending.toList, s.Idle t :=
  fun t ht => ((advances_pass h).idle same t ht).resolve_left (by simp)

/-- Settling leaves an idle term as it is. -/
theorem State.Idle.settle (h : p.state.Idle t) : p.settle t = .ok (p.postpone t) := by
  cases h with
  | implication eval unknown => simp [Progress.settle, eval, unknown]
  | judged judged eval defines =>
    have hjudge : p.judge t = .ok (p.postpone t) := by rw [Progress.judge, eval]
    by_cases heq : ∃ indices a b, t = .app .eq indices [a, b]
    · obtain ⟨indices, a, b, rfl⟩ := heq
      rw [Progress.settle, Progress.equate, defines indices a b rfl]
      exact hjudge
    · rw [Progress.settle.eq_4 p t judged.notAnd judged.notImplies
        fun indices a b h => heq ⟨indices, a, b, h⟩]
      exact hjudge

/-- A pass over idle terms changes nothing. -/
theorem pass_idle (h : ∀ t ∈ work, s.Idle t) : pass s work = .ok ⟨s, work.toArray⟩ := by
  rw [pass, ← Progress.settleAll_eq_foldlM,
    Progress.settleAll_postpone fun t ht q hq => State.Idle.settle (hq ▸ h t ht)]
  simp

/-! ## All passes -/

/-- Where nothing can be done any more: no conjunction is left, implications wait for their
antecedents, all other terms have no value, no equality defines anything, and one more pass
would change nothing. -/
structure State.Exhausted (s : State) (pending : List Term) : Prop where
  conjunctions : ∀ indices args, .app .and indices args ∉ pending
  implications : ∀ indices a c, .app .implies indices [a, c] ∈ pending →
    s.eval a = .ok .unknown
  others : ∀ t ∈ pending, (∀ indices a c, t ≠ .app .implies indices [a, c]) →
    s.eval t = .ok .unknown
  equalities : ∀ indices a b, .app .eq indices [a, b] ∈ pending →
    s.defineTerm a b = .ok none ∧ s.defineTerm b a = .ok none
  unchanged : pass s pending = .ok ⟨s, pending.toArray⟩

theorem exhausted_of_idle (h : ∀ t ∈ work, s.Idle t) : s.Exhausted work where
  conjunctions _ _ mem := Stable.not_idle_and (h _ mem)
  implications indices a c mem := by
    cases h _ mem with
    | @implication _ _ _ v eval unknown =>
      cases v with
      | unknown => exact eval
      | _ => cases unknown
    | judged judged => exact (judged.notImplies _ _ _ rfl).elim
  others t mem other := by
    cases h t mem with
    | implication => exact (other _ _ _ rfl).elim
    | judged _ eval => exact eval
  equalities indices a b mem := by
    cases h _ mem with
    | judged _ _ defines => exact State.defineTerm_of_define (defines _ _ _ rfl)
  unchanged := pass_idle h

/-- Nothing happens in a pass over idle terms, so there is none after it. -/
theorem passes_ending_of_idle (h : ∀ t ∈ work, s.Idle t) : (ending s work).passes ≤ 1 := by
  by_cases hempty : work.isEmpty = true
  · obtain rfl := List.isEmpty_iff.1 hempty
    rw [ending_nil]
    exact Nat.zero_le 1
  · rw [ending_eq hempty, pass_idle h]
    simp

/-- There are at most two passes without definitions, and as many others as there are
equalities. -/
theorem passes_ending_le (s : State) (work : List Term) :
    (ending s work).passes ≤ Term.allEqualities work + 2 := by
  induction s, work using passes.induct with
  | case1 s work hempty =>
    obtain rfl := List.isEmpty_iff.1 hempty
    rw [ending_nil]
    exact Nat.zero_le _
  | case2 s work hempty e h | case3 s work hempty t h =>
    rw [ending_eq hempty, h]
    exact Nat.le_add_left 1 _
  | case4 s work hempty p h stuck =>
    rw [ending_eq hempty, h]
    simp only [if_pos stuck]
    omega
  | case5 s work hempty p h stuck ih =>
    rw [ending_eq hempty, h]
    simp only [if_neg stuck]
    change (ending p.state p.pending.toList).passes + 1 ≤ _
    rcases definitions_pass h with hmore | hsame
    · have := equalities_pass h
      omega
    · -- nothing was defined, so that the next pass is the last one
      have := passes_ending_of_idle (hsame ▸ idle_pass h hsame)
      omega

/-- Propagation gives up only where nothing can be done any more. -/
theorem exhausted_ending {count : Nat} {first : String}
    (h : passes s work = .error (.undetermined count first)) :
    (ending s work).pending.length = count ∧
      (ending s work).state.Exhausted (ending s work).pending := by
  revert h
  refine passes_induction (P := fun s work r => r = .error (.undetermined count first) →
    (ending s work).pending.length = count ∧
      (ending s work).state.Exhausted (ending s work).pending)
    ?done ?failed ?contradiction ?stuck ?next s work
  case done => rintro s ⟨⟩
  case contradiction => rintro s work t _ ⟨⟩
  case failed =>
    rintro s work e hpass ⟨⟩
    exact (conclusive_pass hpass _ _ rfl).elim
  case stuck =>
    rintro s work p hwork hpass hsize hdefinitions ⟨⟩
    rw [ending_eq (by simpa using hwork), hpass]
    simp only [if_pos (And.intro hsize hdefinitions)]
    have hsame := state_eq_of_pass hpass hdefinitions
    exact ⟨Array.length_toList, exhausted_of_idle (hsame ▸ idle_pass hpass hsame)⟩
  case next =>
    intro s work p hwork hpass changed ih h
    rw [ending_eq (by simpa using hwork), hpass]
    simp only [if_neg changed]
    exact ih h

/-- Solving a formula, well sorted or not, takes at most two passes more than there are equalities
in its assertions, and it is given up only where nothing that is pending can be settled. -/
theorem solve_exhausts (f : Formula) :
    solve f = solveEnding f >>= Ending.result ∧
      (∀ e, solveEnding f = .ok e →
        e.passes ≤ Term.allEqualities (assertedTerms f) + 2) ∧
      ∀ count first, solve f = .error (.undetermined count first) →
        ∃ e, solveEnding f = .ok e ∧ e.pending.length = count ∧
          e.state.Exhausted e.pending := by
  refine ⟨solve_eq_solveEnding f, fun e he => ?_, fun count first h => ?_⟩
  · obtain ⟨s, -, h⟩ := exists_ok_of_bind he
    cases h
    exact passes_ending_le s _
  · rw [solve] at h
    cases hs : declareAll f with
    | error e =>
      rw [hs] at h
      cases h
      exact (decisive_declareAll f _ hs _ _ rfl).elim
    | ok s =>
      rw [hs] at h
      refine ⟨ending s (assertedTerms f), ?_, exhausted_ending h⟩
      rw [solveEnding, hs]
      rfl

/-- A lower bound for a word of eight bits. -/
def lowerBound (n : Nat) : Term := .uge (.symbol ⟨"x"⟩) (.word 8 n)

/-- Two bounds for a word of which nothing else is said. -/
def twoBounds : Formula :=
  [.declareBits ⟨"x"⟩ ⟨8⟩, .assert (.all [lowerBound 16, lowerBound 32])]

/-- The first pass only splits the conjunction of the bounds and the second one does nothing, so
that there are two passes without an equality. -/
theorem solve_exhausts_twoBounds :
    Term.allEqualities (assertedTerms twoBounds) = 0 ∧
      ∃ e, solveEnding twoBounds = .ok e ∧ e.passes = 2 ∧ e.pending.length = 2 ∧
        e.state.Exhausted e.pending := by
  obtain ⟨s, hs⟩ := exists_declareAll (f := twoBounds) (by decide)
  have hveils : s.Veils twoBounds.signature (· = "x") := by
    have hvalues : s.values = {} := (State.declareCommands_spec hs).1.values
    exact ⟨(declareAll_spec (by decide) hs).1.declared, fun x _ => by simp [hvalues]⟩
  have hidle : ∀ t ∈ [lowerBound 16, lowerBound 32], s.Idle t := by
    have hbound : ∀ n, s.Idle (lowerBound n) := fun n =>
      .judged ⟨nofun, nofun⟩
        (hveils.eval (.uge (.symbol (w := 8) (by decide) rfl) (.constant (by decide) n))) nofun
    simp [hbound]
  have hsplit : pass s [.all [lowerBound 16, lowerBound 32]] =
      .ok ⟨s, #[lowerBound 16, lowerBound 32]⟩ := by
    have hall := Progress.settle_all { state := s } [lowerBound 16, lowerBound 32]
    rw [Progress.settleAll_eq_foldlM] at hall
    rw [pass, List.foldlM_cons, hall]
    change (pass s [lowerBound 16, lowerBound 32] >>= fun p => [].foldlM Progress.settle p) = _
    rw [pass_idle hidle]
    rfl
  have hending : ending s (assertedTerms twoBounds) =
      ⟨2, s, [lowerBound 16, lowerBound 32], .error (.undetermined 2 (quote (lowerBound 16)))⟩ := by
    change ending s [.all [lowerBound 16, lowerBound 32]] = _
    rw [ending_eq (by simp), hsplit]
    simp [ending_eq, pass_idle hidle, Ending.next]
  have hrun : solveEnding twoBounds = .ok (ending s (assertedTerms twoBounds)) := by
    rw [solveEnding, hs]
    rfl
  obtain ⟨hsolve, -, hexhausted⟩ := solve_exhausts twoBounds
  have hundetermined : solve twoBounds = .error (.undetermined 2 (quote (lowerBound 16))) := by
    rw [hsolve, hrun, hending]
    rfl
  obtain ⟨e, he, hpending, hstate⟩ := hexhausted _ _ hundetermined
  obtain rfl := Except.ok.inj (hrun.symm.trans he)
  exact ⟨by decide, _, hrun, by rw [hending], hpending, hstate⟩

end Propagation

end CycleCheck
