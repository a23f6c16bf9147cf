import CycleCheck.Proofs.Propagation.Forward
import Mathlib.Data.List.Chain

/-!
The points of a run. Propagation starts in the state of the declarations and goes on to another
state with each definition, and the model that is found is the last one. What every definition that
an assertion can lead to makes of a state relates each point of the run to the next; what holds of
the first state and is kept by every such definition holds at all points.
-/

namespace CycleCheck.Propagation

variable {s : State} {work : List Term} {p q : Progress}

/-! ## Points -/

mutual

/-- The states after the definitions that settling a term makes, in order. -/
def Progress.points (p : Progress) : Term → List State
  | .app .and _ args => p.allPoints args
  | .app .implies _ [a, c] =>
      match p.state.eval a with
      | .error _ => []
      | .ok v => if !v.known then [] else if !v.truth then [] else p.points c
  | .app .eq _ [a, b] =>
      match p.state.define a b with
      | .ok (some d) => [p.state.add d]
      | _ => []
  | _ => []

def Progress.allPoints (p : Progress) : List Term → List State
  | [] => []
  | t :: rest =>
      p.points t ++ match p.settle t with
        | .ok q => q.allPoints rest
        | .error _ => []

end

/-- The states after the definitions that passes make, in order. -/
def passPoints (s : State) (work : List Term) : List State :=
  if work.isEmpty then []
  else
    Progress.allPoints { state := s } work ++
      match _h : pass s work with
      | .error _ => []
      | .ok p =>
          if _stuck : p.pending.size = work.length ∧ p.state.definitions = s.definitions then []
          else passPoints p.state p.pending.toList
termination_by weightAll work
decreasing_by exact weightAll_pass_lt _h _stuck

/-- The states that propagation goes through when it solves a formula, in order. -/
def points (f : Formula) : List State :=
  match declareAll f with
  | .error _ => []
  | .ok s => s :: passPoints s (assertedTerms f)

theorem passPoints_eq (h : ¬ work.isEmpty = true) :
    passPoints s work = Progress.allPoints { state := s } work ++ match pass s work with
      | .error _ => []
      | .ok p =>
          if p.pending.size = work.length ∧ p.state.definitions = s.definitions then []
          else passPoints p.state p.pending.toList := by
  rw [passPoints, if_neg h]
  split <;> simp_all

@[simp] theorem passPoints_nil (s : State) : passPoints s [] = [] := by
  rw [passPoints]
  rfl

/-! ## The last point -/

/-- A term that is settled by its value leaves the state as it is. -/
theorem Progress.state_judge (h : p.judge t = .ok q) : q.state = p.state := by
  unfold Progress.judge at h
  split at h
  all_goals first | cases h; rfl | cases h

/-- The state that settling leaves is the last one it goes through. -/
theorem Progress.state_settle_and_settleAll :
    (∀ (p : Progress) (t : Term), ∀ q, p.settle t = .ok q →
      q.state = (p.points t).getLast?.getD p.state) ∧
    ∀ (p : Progress) (ts : List Term), ∀ q, p.settleAll ts = .ok q →
      q.state = (p.allPoints ts).getLast?.getD p.state := by
  refine Progress.settle_induction ?and ?waiting ?vacuous ?discharged ?eq ?other ?nil ?cons
  case and =>
    intro p indices args q ih
    rw [Progress.points]
    exact ih
  case waiting =>
    intro p indices a c v hv hk
    simp [Progress.points, hv, hk, Progress.postpone]
  case vacuous =>
    intro p indices a c v hv hk hf
    simp [Progress.points, hv, hk, hf]
  case discharged =>
    intro p indices a c v q hv hk hf ih
    simp only [Progress.points, hv, hk, hf]
    exact ih
  case eq =>
    intro p indices a b q h
    rw [Progress.equate] at h
    rw [Progress.points]
    split at h
    · cases h
    · next d hd =>
      cases h
      rw [hd]
      rfl
    · next hnone =>
      rw [hnone]
      exact Progress.state_judge h
  case other =>
    intro p t q h₁ h₂ h₃ h
    rw [Progress.points.eq_4 p t h₁ h₂ h₃]
    exact Progress.state_judge h
  case nil => exact fun _ => rfl
  case cons =>
    intro p t rest q r hq _ ih ihs
    rw [Progress.allPoints, hq, List.getLast?_append, Option.getD_or, ← ih, ihs]

/-- The model of a satisfiable formula is the last point of its run. -/
theorem getLast?_points {f : Formula} {m : State} (h : solve f = .ok (.sat m)) :
    (points f).getLast? = some m := by
  have hpasses : ∀ s work, passes s work = .ok (.sat m) →
      (passPoints s work).getLast?.getD s = m := by
    refine passes_induction (P := fun s work r => r = .ok (.sat m) →
      (passPoints s work).getLast?.getD s = m) ?done ?failed ?contradiction ?stuck ?next
    case done =>
      rintro s ⟨⟩
      rw [passPoints_nil]
      rfl
    case failed | contradiction => rintro s work _ _ ⟨⟩
    case stuck => rintro s work p _ _ _ _ ⟨⟩
    case next =>
      intro s work p hwork hpass changed ih h
      rw [pass, ← Progress.settleAll_eq_foldlM] at hpass
      have hstate := Progress.state_settle_and_settleAll.2 _ _ _ hpass
      rw [passPoints_eq (by simpa using hwork), pass, ← Progress.settleAll_eq_foldlM, hpass]
      simp only [if_neg changed]
      rw [List.getLast?_append, Option.getD_or, ← hstate, ih h]
  rw [solve] at h
  obtain ⟨s, hs, h⟩ := exists_ok_of_bind h
  rw [points, hs, ← hpasses s _ h, List.getLast?_cons]

/-! ## What settling comes to -/

/-- Terms with all terms that settling them comes to. -/
structure Closed (E : Term → Prop) : Prop where
  conjunct : ∀ indices args, E (.app .and indices args) → ∀ t ∈ args, E t
  consequent : ∀ indices a c, E (.app .implies indices [a, c]) → E c

variable {E : Term → Prop} {P : State → Prop}

/-- What settling leaves is one of the terms that it comes to. -/
theorem Closed.pending_settle_and_settleAll (closed : Closed E) :
    (∀ (p : Progress) (t : Term), ∀ q, p.settle t = .ok q → E t →
      ∀ u ∈ q.pending.toList, u ∈ p.pending.toList ∨ E u) ∧
    ∀ (p : Progress) (ts : List Term), ∀ q, p.settleAll ts = .ok q → (∀ t ∈ ts, E t) →
      ∀ u ∈ q.pending.toList, u ∈ p.pending.toList ∨ E u := by
  have hpostpone : ∀ {p : Progress} {t : Term}, E t →
      ∀ u ∈ (p.postpone t).pending.toList, u ∈ p.pending.toList ∨ E u := by
    intro p t ht u hu
    simp only [Progress.postpone, Array.toList_push, List.mem_append, List.mem_singleton] at hu
    rcases hu with hu | rfl
    · exact .inl hu
    · exact .inr ht
  have hjudge : ∀ {p q : Progress} {t : Term}, E t → p.judge t = .ok q →
      ∀ u ∈ q.pending.toList, u ∈ p.pending.toList ∨ E u := by
    intro p q t ht h
    unfold Progress.judge at h
    split at h
    · cases h
    · cases h
      exact hpostpone ht
    · cases h
      exact fun _ => .inl
    · cases h
    · cases h
  refine Progress.settle_induction ?and ?waiting ?vacuous ?discharged ?eq ?other ?nil ?cons
  case and =>
    intro p indices args q ih ht
    exact ih (closed.conjunct _ _ ht)
  case waiting =>
    intro p indices a c v _ _ ht
    exact hpostpone ht
  case vacuous =>
    intro p indices a c v _ _ _ _ u hu
    exact .inl hu
  case discharged =>
    intro p indices a c v q _ _ _ ih ht
    exact ih (closed.consequent _ _ _ ht)
  case eq =>
    intro p indices a b q h ht
    rw [Progress.equate] at h
    split at h
    · cases h
    · cases h
      exact fun _ => .inl
    · exact hjudge ht h
  case other =>
    intro p t q _ _ _ h ht
    exact hjudge ht h
  case nil =>
    intro p _ u hu
    exact .inl hu
  case cons =>
    intro p t rest q r _ _ ih ihs hts u hu
    obtain ⟨ht, hrest⟩ := List.forall_mem_cons.1 hts
    rcases ihs hrest u hu with hu | hu
    · exact ih ht u hu
    · exact .inr hu

theorem of_getLast? {points : List State} (h : ∀ s ∈ points, P s) (start : P s) :
    P (points.getLast?.getD s) := by
  cases hlast : points.getLast? with
  | none => exact start
  | some s' => exact h s' (List.mem_of_getLast? hlast)

/-! ## From one point to the next -/

/-- A relation that every definition by one of these terms makes, in states of a property that goes
from a state to a related one. -/
structure Linked (E : Term → Prop) (P : State → Prop) (R : State → State → Prop) : Prop
    extends Closed E where
  define : ∀ (s : State) indices a b d, P s → E (.app .eq indices [a, b]) →
    s.define a b = .ok (some d) → R s (s.add d)
  keeps : ∀ s s', P s → R s s' → P s'

variable {R : State → State → Prop} {l m : List State}

theorem isChain_cons_append (hl : List.IsChain R (s :: l))
    (hm : List.IsChain R (l.getLast?.getD s :: m)) : List.IsChain R (s :: (l ++ m)) := by
  induction l generalizing s with
  | nil => exact hm
  | cons x rest ih =>
    obtain ⟨hfirst, hrest⟩ := List.isChain_cons_cons.1 hl
    rw [List.getLast?_cons, Option.getD_some] at hm
    exact List.isChain_cons_cons.2 ⟨hfirst, ih hrest hm⟩

theorem Linked.forall_of_isChain (linked : Linked E P R) (start : P s)
    (h : List.IsChain R (s :: l)) : ∀ s' ∈ l, P s' := by
  induction l generalizing s with
  | nil => simp
  | cons x rest ih =>
    obtain ⟨hfirst, hrest⟩ := List.isChain_cons_cons.1 h
    have hx := linked.keeps s x start hfirst
    exact List.forall_mem_cons.2 ⟨hx, ih hx hrest⟩

/-- Each point of settling is related to the one before. -/
theorem Linked.isChain_points_and_allPoints (linked : Linked E P R) :
    (∀ (p : Progress) (t : Term), P p.state → E t → List.IsChain R (p.state :: p.points t)) ∧
    ∀ (p : Progress) (ts : List Term), P p.state → (∀ t ∈ ts, E t) →
      List.IsChain R (p.state :: p.allPoints ts) := by
  refine Progress.settle.mutual_induct
    (fun p t => P p.state → E t → List.IsChain R (p.state :: p.points t))
    (fun p ts => P p.state → (∀ t ∈ ts, E t) → List.IsChain R (p.state :: p.allPoints ts))
    ?and ?failed ?waiting ?vacuous ?discharged ?eq ?other ?nil ?cons
  case and =>
    intro p indices args ih hp ht
    rw [Progress.points]
    exact ih hp (linked.conjunct _ _ ht)
  case failed =>
    intro p indices a c e he _ _
    simp [Progress.points, he]
  case waiting =>
    intro p indices a c v hv hk _ _
    simp [Progress.points, hv, hk]
  case vacuous =>
    intro p indices a c v hv hk hf _ _
    simp [Progress.points, hv, hk, hf]
  case discharged =>
    intro p indices a c v hv hk hf ih hp ht
    simp only [Progress.points, hv, hk, hf]
    exact ih hp (linked.consequent _ _ _ ht)
  case eq =>
    intro p indices a b hp ht
    rw [Progress.points]
    split
    · next d hd =>
      exact .cons_cons (linked.define p.state indices a b d hp ht hd) (.singleton _)
    · exact .singleton _
  case other =>
    intro p t h₁ h₂ h₃ _ _
    rw [Progress.points.eq_4 p t h₁ h₂ h₃]
    exact .singleton _
  case nil =>
    intro p _ _
    exact .singleton _
  case cons =>
    intro p t rest iht ihs hp hts
    obtain ⟨ht, hrest⟩ := List.forall_mem_cons.1 hts
    have hfirst := iht hp ht
    rw [Progress.allPoints]
    refine isChain_cons_append hfirst ?_
    split
    · next r hr =>
      have hstate := Progress.state_settle_and_settleAll.1 p t r hr
      rw [← hstate]
      exact ihs r (hstate ▸ of_getLast? (linked.forall_of_isChain hp hfirst) hp) hrest
    · exact .singleton _

/-- A definition is counted, so that the state is the same if the count is. -/
theorem linked_definitions : Linked (fun _ => True) (fun _ => True)
    fun s s' => s.definitions < s'.definitions where
  conjunct _ _ _ _ _ := trivial
  consequent _ _ _ _ := trivial
  define s _ _ _ d _ _ _ := by cases d <;> exact Nat.lt_succ_self s.definitions
  keeps _ _ _ _ := trivial

theorem definitions_lt_or_eq
    (h : List.IsChain (fun s s' => s.definitions < s'.definitions) (s :: l)) :
    s.definitions < (l.getLast?.getD s).definitions ∨ l.getLast?.getD s = s := by
  cases hlast : l.getLast? with
  | none => exact .inr rfl
  | some s' =>
    have hcounts := (List.isChain_map (R := (· < ·)) State.definitions).2 h
    exact .inl (hcounts.rel_cons (List.mem_map_of_mem (List.mem_of_getLast? hlast)))

theorem Progress.definitions_settle_and_settleAll :
    (∀ (p : Progress) (t : Term), ∀ q, p.settle t = .ok q →
      p.state.definitions < q.state.definitions ∨ q.state = p.state) ∧
    ∀ (p : Progress) (ts : List Term), ∀ q, p.settleAll ts = .ok q →
      p.state.definitions < q.state.definitions ∨ q.state = p.state := by
  have hchain := linked_definitions.isChain_points_and_allPoints
  refine ⟨fun p t q h => ?_, fun p ts q h => ?_⟩
  · rw [Progress.state_settle_and_settleAll.1 p t q h]
    exact definitions_lt_or_eq (hchain.1 p t trivial trivial)
  · rw [Progress.state_settle_and_settleAll.2 p ts q h]
    exact definitions_lt_or_eq (hchain.2 p ts trivial fun _ _ => trivial)

/-- If settling terms leaves the state as it was, then so does settling the first of them: a
definition would still be counted. -/
theorem Progress.state_eq_of_settleAll {r : Progress} {t : Term} {ts : List Term}
    (ht : p.settle t = .ok q) (hts : q.settleAll ts = .ok r) (same : r.state = p.state) :
    q.state = p.state := by
  rcases Progress.definitions_settle_and_settleAll.1 p t q ht with hlt | heq
  · rcases Progress.definitions_settle_and_settleAll.2 q ts r hts with hlt' | heq'
    · rw [same] at hlt'
      exact absurd hlt' (Nat.lt_asymm hlt)
    · exact heq'.symm.trans same
  · exact heq

theorem definitions_pass (h : pass s work = .ok p) :
    s.definitions < p.state.definitions ∨ p.state = s := by
  rw [pass, ← Progress.settleAll_eq_foldlM] at h
  exact Progress.definitions_settle_and_settleAll.2 _ _ _ h

theorem state_eq_of_pass (h : pass s work = .ok p) (same : p.state.definitions = s.definitions) :
    p.state = s :=
  (definitions_pass h).resolve_left same.not_gt

theorem Linked.isChain_passPoints (linked : Linked E P R) (hs : P s) (hwork : ∀ t ∈ work, E t) :
    List.IsChain R (s :: passPoints s work) := by
  induction s, work using passes.induct with
  | case1 s work hempty =>
    rw [passPoints, if_pos hempty]
    exact .singleton s
  | case2 s work hempty e h | case3 s work hempty t h =>
    rw [passPoints_eq hempty, h, List.append_nil]
    exact linked.isChain_points_and_allPoints.2 { state := s } work hs hwork
  | case4 s work hempty p h stuck =>
    rw [passPoints_eq hempty, h]
    simp only [if_pos stuck, List.append_nil]
    exact linked.isChain_points_and_allPoints.2 { state := s } work hs hwork
  | case5 s work hempty p h stuck ih =>
    have hpass := linked.isChain_points_and_allPoints.2 { state := s } work hs hwork
    rw [passPoints_eq hempty, h]
    simp only [if_neg stuck]
    rw [pass, ← Progress.settleAll_eq_foldlM] at h
    have hstate := Progress.state_settle_and_settleAll.2 _ _ _ h
    have hpending := linked.toClosed.pending_settle_and_settleAll.2 _ _ _ h hwork
    refine isChain_cons_append hpass ?_
    rw [← hstate]
    exact ih (hstate ▸ of_getLast? (linked.forall_of_isChain hs hpass) hs)
      fun t ht => (hpending t ht).resolve_left (by simp)

/-- Each point of a run is related to the one before. -/
theorem Linked.isChain_points {f : Formula} (linked : Linked E P R)
    (start : ∀ s, declareAll f = .ok s → P s) (asserted : ∀ t, Command.assert t ∈ f → E t) :
    List.IsChain R (points f) := by
  rw [points]
  split
  · exact .nil
  · next s hs =>
    exact linked.isChain_passPoints (start s hs) fun t ht => asserted t (mem_assertedTerms.1 ht)

/-! ## What holds at all points -/

/-- A property of states that every definition by one of these terms keeps. -/
structure Kept (E : Term → Prop) (P : State → Prop) : Prop extends Closed E where
  define : ∀ (s : State) indices a b d, P s → E (.app .eq indices [a, b]) →
    s.define a b = .ok (some d) → P (s.add d)

theorem Kept.linked (kept : Kept E P) : Linked E P fun _ s' => P s' where
  toClosed := kept.toClosed
  define := kept.define
  keeps _ _ _ h := h

/-- What holds where everything is declared and nothing is defined holds at all points of a run, if
definitions by assertions keep it. -/
theorem Kept.forall_points {f : Formula} (kept : Kept E P)
    (start : ∀ s, declareAll f = .ok s → P s) (asserted : ∀ t, Command.assert t ∈ f → E t) :
    ∀ s ∈ points f, P s := by
  rw [points]
  split
  · simp
  · next s hs =>
    have hchain := kept.linked.isChain_passPoints (start s hs)
      fun t ht => asserted t (mem_assertedTerms.1 ht)
    rw [List.forall_mem_cons]
    exact ⟨start s hs, kept.linked.forall_of_isChain (start s hs) hchain⟩

end CycleCheck.Propagation
