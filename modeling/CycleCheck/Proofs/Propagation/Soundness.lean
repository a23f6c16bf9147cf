import CycleCheck.Proofs.Propagation.Settling
import Mathlib.Data.List.Nodup

/-!
Verdicts of propagation. On a well sorted formula without overlong extensions, the model of a
satisfiable formula says exactly what the formula says: the interpretations that agree with the
model are those that satisfy the formula, and whatever values are chosen for the symbols that the
model leaves open, there is such an interpretation. A formula found unsatisfiable has none.
-/

namespace CycleCheck.Propagation

variable {sig : Signature}

/-! ## Passes -/

theorem Progress.settled_foldlM (work : List Term) {p : Progress} (wk : p.WellKinded sig)
    (hwork : ∀ t ∈ work, Assertable sig t) :
    p.Settled sig (fun I => ∀ t ∈ work, I.Holds t) (work.foldlM Progress.settle p) := by
  induction work generalizing p with
  | nil => exact Progress.settled_self wk (by simp)
  | cons t rest ih =>
    have ht := Progress.settled_settle_and_settleAll.1 p t wk (hwork t List.mem_cons_self)
    have hbind := Progress.settled_bind ht
      (fun q hq => ih hq (fun u hu => hwork u (List.mem_cons_of_mem t hu)))
    exact hbind.congr fun I _ _ => by rw [List.forall_mem_cons]

/-- The verdict on work in a state: the model keeps the interpretations that agree with the state
and make the work true, and there are none if the verdict is negative. -/
def Decided (sig : Signature) (s : State) (work : List Term) :
    Except PropagationError Solution → Prop
  | .ok (.sat m) => m.WellKinded sig ∧ ∀ I : Interpretation, I.Fits sig →
      (m.Agrees I ↔ s.Agrees I ∧ ∀ t ∈ work, I.Holds t)
  | .ok (.unsat _) => ∀ I : Interpretation, I.Fits sig → s.Agrees I → ¬ ∀ t ∈ work, I.Holds t
  | .error _ => True

/-- A pass from a state with nothing pending. -/
theorem settled_pass {s : State} {work : List Term} (wk : s.WellKinded sig)
    (hwork : ∀ t ∈ work, Assertable sig t) :
    Progress.Settled sig { state := s } (fun I => ∀ t ∈ work, I.Holds t) (pass s work) :=
  Progress.settled_foldlM work ⟨wk, by simp⟩ hwork

theorem Progress.admits_start {s : State} {I : Interpretation} :
    Progress.Admits { state := s } I ↔ s.Agrees I := by
  simp [Progress.Admits]

theorem passes_eq {s : State} {work : List Term} (h : ¬ work.isEmpty = true) :
    passes s work = match pass s work with
      | .error (.failed e) => .error e
      | .error (.contradiction t) => .ok (.unsat t)
      | .ok p =>
          if p.pending.size = work.length ∧ p.state.definitions = s.definitions then
            .error (.undetermined p.pending.size ((p.pending[0]?).elim "" quote))
          else passes p.state p.pending.toList := by
  rw [passes, if_neg h]
  split <;> simp_all

/-- Induction on passes: they end where nothing is left, with an error, with a contradiction or with
a pass that changes nothing, and otherwise the result is that of the passes after the first one. -/
theorem passes_induction {P : State → List Term → Except PropagationError Solution → Prop}
    (done : ∀ s, P s [] (.ok (.sat s)))
    (failed : ∀ s work e, pass s work = .error (.failed e) → P s work (.error e))
    (contradiction : ∀ s work t, pass s work = .error (.contradiction t) → P s work (.ok (.unsat t)))
    (stuck : ∀ s work p, work ≠ [] → pass s work = .ok p → p.pending.size = work.length →
      p.state.definitions = s.definitions →
      P s work (.error (.undetermined p.pending.size ((p.pending[0]?).elim "" quote))))
    (next : ∀ s work p, work ≠ [] → pass s work = .ok p →
      ¬ (p.pending.size = work.length ∧ p.state.definitions = s.definitions) →
      P p.state p.pending.toList (passes p.state p.pending.toList) →
      P s work (passes p.state p.pending.toList)) (s : State) (work : List Term) :
    P s work (passes s work) := by
  induction s, work using passes.induct with
  | case1 s work hempty =>
    obtain rfl := List.isEmpty_iff.1 hempty
    rw [passes, if_pos hempty]
    exact done s
  | case2 s work hempty e h =>
    rw [passes_eq hempty, h]
    exact failed s work e h
  | case3 s work hempty t h =>
    rw [passes_eq hempty, h]
    exact contradiction s work t h
  | case4 s work hempty p h same =>
    rw [passes_eq hempty, h]
    simp only [if_pos same]
    exact stuck s work p (by simpa using hempty) h same.1 same.2
  | case5 s work hempty p h changed ih =>
    rw [passes_eq hempty, h]
    simp only [if_neg changed]
    exact next s work p (by simpa using hempty) h changed ih

theorem decided_passes {s : State} {work : List Term} (wk : s.WellKinded sig)
    (hwork : ∀ t ∈ work, Assertable sig t) : Decided sig s work (passes s work) := by
  revert wk hwork
  refine passes_induction (P := fun s work r => s.WellKinded sig → (∀ t ∈ work, Assertable sig t) →
    Decided sig s work r) ?done ?failed ?contradiction ?stuck ?next s work
  case done => exact fun s wk _ => ⟨wk, fun I _ => by simp⟩
  case failed | stuck => intros; trivial
  case contradiction =>
    intro s work t h wk hwork I fits hs
    have hpass := settled_pass wk hwork
    rw [h] at hpass
    exact hpass I fits (Progress.admits_start.2 hs)
  case next =>
    intro s work p _ h _ ih wk hwork
    have hpass := settled_pass wk hwork
    rw [h] at hpass
    obtain ⟨hp, hadmits⟩ := hpass
    -- the interpretations of the state before the pass and of the work are those after the pass
    have hsame : ∀ I : Interpretation, I.Fits sig →
        ((p.state.Agrees I ∧ ∀ t ∈ p.pending.toList, I.Holds t) ↔
          s.Agrees I ∧ ∀ t ∈ work, I.Holds t) := fun I fits =>
      (hadmits I fits).trans (and_congr_left fun _ => Progress.admits_start)
    have hdecided := ih hp.state hp.pending
    match hr : passes p.state p.pending.toList with
    | .error _ => trivial
    | .ok (.sat m) =>
      rw [hr] at hdecided
      exact ⟨hdecided.1, fun I fits => (hdecided.2 I fits).trans (hsame I fits)⟩
    | .ok (.unsat t) =>
      rw [hr] at hdecided
      intro I fits hs hall
      obtain ⟨hagrees, hpending⟩ := (hsame I fits).2 ⟨hs, hall⟩
      exact hdecided I fits hagrees hpending

/-! ## Declarations -/

/-- Notes what one command declares. -/
def State.declareCommand (s : State) : Command → Except PropagationError State
  | .declareBits x width => s.declare x.name (.bits (indexInt width))
  | .declareArray x address data => s.declare x.name (.array (indexInt address) (indexInt data))
  | _ => .ok s

/-- A state knows as much of the symbols as another one, apart from their sorts, and knows the
sorts that the other one knows. -/
structure State.Declares (s s' : State) : Prop where
  values : s'.values = s.values
  arrays : s'.arrays = s.arrays
  cells : s'.cells = s.cells
  sorts : ∀ (x : String) τ, s.sorts[x]? = some τ → s'.sorts[x]? = some τ

theorem State.Declares.trans {s s' s'' : State} (h : s.Declares s') (h' : s'.Declares s'') :
    s.Declares s'' where
  values := h'.values.trans h.values
  arrays := h'.arrays.trans h.arrays
  cells := h'.cells.trans h.cells
  sorts := fun x τ hx => h'.sorts x τ (h.sorts x τ hx)

theorem State.declare_spec {s s' : State} {name : String} {τ : TermSort}
    (h : s.declare name τ = .ok s') : s.Declares s' ∧ s'.sorts[name]? = some τ := by
  unfold State.declare at h
  split_ifs at h with hfree
  cases h
  refine ⟨⟨rfl, rfl, rfl, fun x τ' hx => ?_⟩, by simp⟩
  have hne : name ≠ x := by
    rintro rfl
    exact hfree (Std.HashMap.mem_iff_isSome_getElem?.2 (by simp [hx]))
  simpa [Std.HashMap.getElem?_insert, hne] using hx

theorem State.declareCommand_spec {s s' : State} {c : Command} (h : s.declareCommand c = .ok s') :
    s.Declares s' ∧ ∀ x k, c.declared? = some (x, k) → ∃ τ, s'.sorts[x]? = some τ ∧ τ.Of k := by
  unfold State.declareCommand at h
  split at h
  · obtain ⟨hdeclares, hsort⟩ := State.declare_spec h
    refine ⟨hdeclares, fun x k hx => ?_⟩
    cases hx
    exact ⟨_, hsort, _, rfl, indexInt_eq _⟩
  · obtain ⟨hdeclares, hsort⟩ := State.declare_spec h
    refine ⟨hdeclares, fun x k hx => ?_⟩
    cases hx
    exact ⟨_, hsort, _, _, rfl, indexInt_eq _, indexInt_eq _⟩
  · cases h
    refine ⟨⟨rfl, rfl, rfl, fun _ _ hx => hx⟩, fun x k hx => ?_⟩
    simp_all [Command.declared?]

theorem State.declareCommands_spec {f : Formula} {s s' : State}
    (h : f.foldlM State.declareCommand s = .ok s') :
    s.Declares s' ∧ ∀ x k, (x, k) ∈ f.signature → ∃ τ, s'.sorts[x]? = some τ ∧ τ.Of k := by
  induction f generalizing s with
  | nil =>
    cases h
    exact ⟨⟨rfl, rfl, rfl, fun _ _ hx => hx⟩, by simp [Formula.signature]⟩
  | cons c rest ih =>
    obtain ⟨s₁, h₁, h⟩ := exists_ok_of_bind h
    obtain ⟨hfirst, hsort⟩ := State.declareCommand_spec h₁
    obtain ⟨hrest, hsorts⟩ := ih h
    refine ⟨hfirst.trans hrest, fun x k hx => ?_⟩
    rw [Formula.signature, List.mem_filterMap] at hx
    obtain ⟨d, hd, hx⟩ := hx
    rcases List.mem_cons.1 hd with rfl | hd
    · obtain ⟨τ, hτ, hof⟩ := hsort x k hx
      exact ⟨τ, hrest.sorts x τ hτ, hof⟩
    · exact hsorts x k (List.mem_filterMap.2 ⟨d, hd, hx⟩)

/-- Declarations alone are well sorted, and every interpretation agrees with them. -/
theorem declareAll_spec {f : Formula} {s : State} (unique : (f.signature.map Prod.fst).Nodup)
    (h : declareAll f = .ok s) :
    s.WellKinded f.signature ∧ ∀ I : Interpretation, s.Agrees I := by
  obtain ⟨hdeclares, hsorts⟩ := State.declareCommands_spec h
  have hvalues : s.values = {} := hdeclares.values
  have harrays : s.arrays = {} := hdeclares.arrays
  have hcells : s.cells = {} := hdeclares.cells
  refine ⟨⟨fun x k k' hk hk' => ?_, hsorts, by simp [hvalues], by simp [harrays],
    by simp [hcells]⟩, fun I => ⟨?_, by simp [harrays], by simp [hcells]⟩⟩
  · exact congrArg Prod.snd (List.inj_on_of_nodup_map unique hk hk' rfl)
  · simp [State.value?, hvalues]

theorem mem_assertedTerms {f : Formula} {t : Term} :
    t ∈ assertedTerms f ↔ Command.assert t ∈ f := by
  simp only [assertedTerms, List.mem_filterMap]
  constructor
  · rintro ⟨c, hc, h⟩
    split at h <;> cases h
    exact hc
  · exact fun h => ⟨_, h, rfl⟩

end CycleCheck.Propagation
