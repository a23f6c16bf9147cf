import CycleCheck.Proofs.Propagation.Stability
import CycleCheck.Proofs.Propagation.Verdict

/-!
Confluence of propagation. Passes over tame assertions stop in a state in which every assertion is
accounted for and what still waits can do nothing. It is the least such state: whatever is known in
it is known in every other one, and whatever waits in it is accounted for there. The order of the
assertions does not matter for that, so it matters neither for the verdict nor for the model.
-/

namespace CycleCheck.Propagation

variable {sig : Signature} {s s' s'' s₂ : State} {W W' W₂ work : List Term} {p q r : Progress}
  {a b c t : Term} {ts us : List Term} {indices : List Numeral}

/-! ## Settling -/

/-- A sound state with tame assertions left for another pass. -/
structure Progress.Sound (p : Progress) (sig : Signature) : Prop where
  state : p.state.Sound sig
  tame : ∀ t ∈ p.pending.toList, Tame sig t .truth

/-- What settling terms does: nothing is lost, every term is accounted for, what is new and waits
could do nothing if nothing was defined, and no state in which nothing can be done is left. -/
structure Progress.Settles (sig : Signature) (p : Progress) (ts : List Term) (q : Progress) :
    Prop where
  sound : q.Sound sig
  kept : p.state.KeptBy q.state
  left : ∀ t ∈ p.pending.toList, t ∈ q.pending.toList
  accounted : ∀ t ∈ ts, q.state.Accounts q.pending.toList t
  idle : q.state = p.state → ∀ t ∈ q.pending.toList, t ∈ p.pending.toList ∨ q.state.Idle t
  least : ∀ s₂ W₂, Stable sig s₂ W₂ → p.state.KeptBy s₂ → (∀ t ∈ ts, s₂.Accounts W₂ t) →
    q.state.KeptBy s₂ ∧ ∀ t ∈ q.pending.toList, t ∈ p.pending.toList ∨ s₂.Accounts W₂ t

/-- The outcome of settling terms. A contradiction is none of a matter of order: there is no later
state in which the terms are accounted for and nothing can be done. -/
def Progress.Outcome (sig : Signature) (p : Progress) (ts : List Term) :
    Except Halt Progress → Prop
  | .ok q => p.Settles sig ts q
  | .error (.contradiction _) => ∀ s₂ W₂, Stable sig s₂ W₂ → p.state.KeptBy s₂ →
      ¬ ∀ t ∈ ts, s₂.Accounts W₂ t
  | .error (.failed _) => False

theorem Progress.outcome_self (hp : p.Sound sig)
    (acc : ∀ t ∈ ts, p.state.Accounts p.pending.toList t) : p.Outcome sig ts (.ok p) where
  sound := hp
  kept := .refl _
  left _ h := h
  accounted := acc
  idle _ _ h := .inl h
  least _ _ _ kept _ := ⟨kept, fun _ h => .inl h⟩

theorem Progress.outcome_postpone (hp : p.Sound sig) (ht : Tame sig t .truth)
    (idle : p.state.Idle t) : p.Outcome sig [t] (.ok (p.postpone t)) := by
  have hpending : (p.postpone t).pending.toList = p.pending.toList ++ [t] := by
    simp [Progress.postpone]
  refine ⟨⟨hp.state, ?_⟩, .refl _, ?_, ?_, fun _ => ?_, fun s₂ W₂ _ kept acc => ⟨kept, ?_⟩⟩
  all_goals simp only [hpending, List.forall_mem_append, List.forall_mem_singleton]
  · exact ⟨hp.tame, ht⟩
  · exact fun u hu => List.mem_append_left _ hu
  · exact .waiting (by simp)
  · exact ⟨fun u hu => .inl hu, .inr idle⟩
  · exact ⟨fun u hu => .inl hu, .inr (acc t (by simp))⟩

/-- Terms that stand for others have the same outcome. -/
theorem Progress.Outcome.congr {x : Except Halt Progress} (h : p.Outcome sig ts x)
    (up : ∀ q : Progress, p.state.KeptBy q.state → q.Sound sig →
      (∀ t ∈ ts, q.state.Accounts q.pending.toList t) →
        ∀ t ∈ us, q.state.Accounts q.pending.toList t)
    (down : ∀ s₂ W₂, Stable sig s₂ W₂ → p.state.KeptBy s₂ → (∀ t ∈ us, s₂.Accounts W₂ t) →
      ∀ t ∈ ts, s₂.Accounts W₂ t) : p.Outcome sig us x := by
  match x, h with
  | .ok q, h =>
    exact { h with
      accounted := up q h.kept h.sound h.accounted
      least := fun s₂ W₂ st kept acc => h.least s₂ W₂ st kept (down s₂ W₂ st kept acc) }
  | .error (.contradiction _), h =>
    exact fun s₂ W₂ st kept acc => h s₂ W₂ st kept (down s₂ W₂ st kept acc)

/-- A term is settled by its value. -/
theorem Progress.outcome_judge (hp : p.Sound sig) (ht : Tame sig t .truth) (judged : Judged t)
    (defines : ∀ indices a b, t = .app .eq indices [a, b] → p.state.define a b = .ok none) :
    p.Outcome sig [t] (p.judge t) := by
  obtain ⟨v, hv, hkind⟩ := ht.exists_eval hp.state.kinds
  unfold Progress.judge
  rw [hv]
  cases v with
  | unknown => exact Progress.outcome_postpone hp ht (.judged judged hv defines)
  | bool b =>
    cases b with
    | true => exact Progress.outcome_self hp (by simpa using .holds judged hv)
    | false =>
      intro s₂ W₂ st kept acc
      have hfalse := kept.eval hp.state st.sound ht hv rfl
      cases st.eval_of_accounts judged (acc t (by simp)) hfalse rfl
  | bits =>
    obtain ⟨_, h, -⟩ := hkind
    cases h
  | array =>
    obtain ⟨_, _, h, -⟩ := hkind
    cases h

/-- An equality is settled by a definition of one of its sides, or by its value. -/
theorem Progress.outcome_equate (hp : p.Sound sig)
    (ht : Tame sig (.app .eq indices [a, b]) .truth) :
    p.Outcome sig [.app .eq indices [a, b]] (p.equate (.app .eq indices [a, b]) a b) := by
  obtain ⟨k, ha, hb, scalar⟩ := ht.of_eq
  obtain ⟨d, hd⟩ := ha.exists_define hb hp.state.kinds
  unfold Progress.equate
  rw [hd]
  cases d with
  | none =>
    refine Progress.outcome_judge hp ht judged_eq fun _ _ _ heq => ?_
    cases heq
    exact hd
  | some f =>
    obtain ⟨kept, holds⟩ := State.eval_add_of_define hp.state ha hb scalar hd
    refine ⟨⟨hp.state.add ha hb scalar hd, hp.tame⟩, kept, fun _ h => h, ?_, fun _ _ h => .inl h,
      fun s₂ W₂ st kept' acc => ⟨?_, fun _ h => .inl h⟩⟩
    · simpa using .holds judged_eq holds
    · exact st.add_keptBy kept' hp.state ht hd (acc _ (by simp))

/-- One term after the other. -/
theorem Progress.Settles.cons {rest : List Term} (h : p.Settles sig [t] q)
    (h' : q.Settles sig rest r) (same : r.state = p.state → q.state = p.state)
    (ht : Tame sig t .truth) : p.Settles sig (t :: rest) r where
  sound := h'.sound
  kept := h.kept.trans h'.kept
  left u hu := h'.left u (h.left u hu)
  accounted := by
    refine List.forall_mem_cons.2 ⟨?_, h'.accounted⟩
    exact (h.accounted t (by simp)).later ⟨h'.kept, fun u hu => .waiting (h'.left u hu)⟩
      h.sound.state h'.sound.state ht
  idle hr u hu := by
    have hq := same hr
    rcases h'.idle (hr.trans hq.symm) u hu with hu | hu
    · rw [hr, ← hq]
      exact h.idle hq u hu
    · exact .inr hu
  least s₂ W₂ st kept acc := by
    obtain ⟨hfirst, hrest⟩ := List.forall_mem_cons.1 acc
    obtain ⟨keptq, accq⟩ := h.least s₂ W₂ st kept (by simpa using hfirst)
    obtain ⟨keptr, accr⟩ := h'.least s₂ W₂ st keptq hrest
    refine ⟨keptr, fun u hu => ?_⟩
    rcases accr u hu with hu | hu
    · exact accq u hu
    · exact .inr hu

/-- Settling tame terms accounts for them and does no more than that. -/
theorem Progress.outcome_settle_and_settleAll :
    (∀ (p : Progress) (t : Term), p.Sound sig → Tame sig t .truth →
      p.Outcome sig [t] (p.settle t)) ∧
    ∀ (p : Progress) (ts : List Term), p.Sound sig → (∀ t ∈ ts, Tame sig t .truth) →
      p.Outcome sig ts (p.settleAll ts) := by
  refine Progress.settle.mutual_induct
    (fun p t => p.Sound sig → Tame sig t .truth → p.Outcome sig [t] (p.settle t))
    (fun p ts => p.Sound sig → (∀ t ∈ ts, Tame sig t .truth) → p.Outcome sig ts (p.settleAll ts))
    ?and ?failed ?waiting ?vacuous ?discharged ?eq ?other ?nil ?cons
  case and =>
    intro p indices args ih hp ht
    rw [Progress.settle]
    refine (ih hp ht.of_and).congr ?_ ?_
    · exact fun q _ _ acc => by simpa using .conjunction acc
    · exact fun s₂ W₂ st _ acc => st.accounts_and (acc _ (List.mem_singleton_self _))
  case failed =>
    intro p indices a c e he hp ht
    obtain ⟨v, hv, -⟩ := ht.of_implies.1.exists_eval hp.state.kinds
    cases he.symm.trans hv
  case waiting =>
    intro p indices a c v hv hk hp ht
    simp only [Progress.settle, hv, hk, if_true]
    exact Progress.outcome_postpone hp ht (.implication hv (by simpa using hk))
  case vacuous =>
    intro p indices a c v hv hk hf hp ht
    simp only [Progress.settle, hv, hk, hf, if_true]
    refine Progress.outcome_self hp ?_
    simpa using .vacuous hv (by simpa using hk) (by simpa using hf)
  case discharged =>
    intro p indices a c v hv hk hf ih hp ht
    obtain ⟨ha, hc⟩ := ht.of_implies
    have known : v.known = true := by simpa using hk
    have holds : v.truth = true := by simpa using hf
    simp only [Progress.settle, hv, hk, hf]
    refine (ih hp hc).congr ?_ ?_
    · intro q kept hq acc
      simpa using .discharged (kept.eval hp.state hq.state ha hv known) known holds
        (acc c (by simp))
    · intro s₂ W₂ st kept acc
      have hantecedent := kept.eval hp.state st.sound ha hv known
      simpa using st.accounts_implies (acc _ (List.mem_singleton_self _)) hantecedent known holds
  case eq =>
    intro p indices a b hp ht
    rw [Progress.settle]
    exact Progress.outcome_equate hp ht
  case other =>
    intro p t h₁ h₂ h₃ hp ht
    rw [Progress.settle.eq_4 p t h₁ h₂ h₃]
    exact Progress.outcome_judge hp ht ⟨h₁, h₂⟩ fun indices a b heq => (h₃ indices a b heq).elim
  case nil =>
    intro p hp _
    rw [Progress.settleAll]
    exact Progress.outcome_self hp (by simp)
  case cons =>
    intro p t rest iht ihs hp hts
    obtain ⟨ht, hrest⟩ := List.forall_mem_cons.1 hts
    have hfirst := iht hp ht
    rw [Progress.settleAll]
    cases hq : p.settle t with
    | error stop =>
      rw [hq] at hfirst
      cases stop with
      | failed e => exact hfirst.elim
      | contradiction u =>
        exact fun s₂ W₂ st kept acc => hfirst s₂ W₂ st kept (by simpa using acc t (by simp))
    | ok q =>
      rw [hq] at hfirst
      have hothers := ihs q hfirst.sound hrest
      change p.Outcome sig (t :: rest) (q.settleAll rest)
      cases hr : q.settleAll rest with
      | error stop =>
        rw [hr] at hothers
        cases stop with
        | failed e => exact hothers.elim
        | contradiction u =>
          intro s₂ W₂ st kept acc
          obtain ⟨hacc, hacc'⟩ := List.forall_mem_cons.1 acc
          exact hothers s₂ W₂ st (hfirst.least s₂ W₂ st kept (by simpa using hacc)).1 hacc'
      | ok r =>
        rw [hr] at hothers
        exact hfirst.cons hothers (Progress.state_eq_of_settleAll hq hr) ht

/-! ## Passes -/

/-- The least later state in which nothing that waits can do anything. -/
structure Closure (sig : Signature) (s : State) (work : List Term) (s' : State) (W : List Term) :
    Prop where
  stable : Stable sig s' W
  extends_start : Extends s work s' W
  least : ∀ s₂ W₂, Stable sig s₂ W₂ → Extends s work s₂ W₂ → Extends s' W s₂ W₂

/-- What passes come to: the least state in which nothing that waits can do anything, or that there
is none. -/
def Closes (sig : Signature) (s : State) (work : List Term) :
    Except PropagationError Solution → Prop
  | .ok (.sat m) => Closure sig s work m []
  | .ok (.unsat _) => ∀ s₂ W₂, Stable sig s₂ W₂ → ¬ Extends s work s₂ W₂
  | .error (.undetermined _ _) => ∃ s' W, W ≠ [] ∧ Closure sig s work s' W
  | .error _ => False

theorem Progress.Settles.extends_start (h : ({ state := s } : Progress).Settles sig work p) :
    Extends s work p.state p.pending.toList := ⟨h.kept, h.accounted⟩

theorem Progress.Settles.extends_least (h : ({ state := s } : Progress).Settles sig work p)
    (st : Stable sig s₂ W₂) (ext : Extends s work s₂ W₂) :
    Extends p.state p.pending.toList s₂ W₂ := by
  obtain ⟨kept, acc⟩ := h.least s₂ W₂ st ext.kept ext.accounted
  exact ⟨kept, fun t ht => (acc t ht).resolve_left (by simp)⟩

/-- What later passes come to is what all passes come to. -/
theorem Closure.of_pass {W : List Term} (tame : ∀ t ∈ work, Tame sig t .truth)
    (h : ({ state := s } : Progress).Settles sig work p)
    (hrest : Closure sig p.state p.pending.toList s' W) : Closure sig s work s' W where
  stable := hrest.stable
  extends_start := h.extends_start.trans hrest.extends_start h.sound.state hrest.stable.sound tame
  least s₂ W₂ st ext := hrest.least s₂ W₂ st (h.extends_least st ext)

theorem outcome_pass (hs : s.Sound sig) (tame : ∀ t ∈ work, Tame sig t .truth) :
    Progress.Outcome sig { state := s } work (pass s work) := by
  rw [pass, ← Progress.settleAll_eq_foldlM]
  exact Progress.outcome_settle_and_settleAll.2 { state := s } work ⟨hs, by simp⟩ tame

theorem closes_passes (hs : s.Sound sig) (tame : ∀ t ∈ work, Tame sig t .truth) :
    Closes sig s work (passes s work) := by
  revert hs tame
  refine passes_induction (P := fun s work r => s.Sound sig → (∀ t ∈ work, Tame sig t .truth) →
    Closes sig s work r) ?done ?failed ?contradiction ?stuck ?next s work
  case done =>
    intro s hs _
    exact ⟨⟨hs, by simp, by simp⟩, .refl s [], fun _ _ _ ext => ext⟩
  case failed =>
    intro s work e h hs tame
    have hpass := outcome_pass hs tame
    rw [h] at hpass
    exact hpass.elim
  case contradiction =>
    intro s work t h hs tame
    have hpass := outcome_pass hs tame
    rw [h] at hpass
    exact fun s₂ W₂ st ext => hpass s₂ W₂ st ext.kept ext.accounted
  case stuck =>
    intro s work p hwork h hsize hdefinitions hs tame
    have hpass := outcome_pass hs tame
    rw [h] at hpass
    have hsame := state_eq_of_pass h hdefinitions
    refine ⟨p.state, p.pending.toList, fun hnil => hwork ?_, ⟨hpass.sound.state, hpass.sound.tame,
      fun t ht => (hpass.idle hsame t ht).resolve_left (by simp)⟩, hpass.extends_start,
      fun s₂ W₂ st ext => hpass.extends_least st ext⟩
    have hlength : p.pending.toList.length = work.length := by simpa using hsize
    rw [hnil] at hlength
    exact List.length_eq_zero_iff.1 hlength.symm
  case next =>
    intro s work p _ h _ ih hs tame
    have hpass := outcome_pass hs tame
    rw [h] at hpass
    have hrest := ih hpass.sound.state hpass.sound.tame
    cases hr : passes p.state p.pending.toList with
    | ok solution =>
      rw [hr] at hrest
      cases solution with
      | sat m => exact .of_pass tame hpass hrest
      | unsat t => exact fun s₂ W₂ st ext => hrest s₂ W₂ st (hpass.extends_least st ext)
    | error e =>
      rw [hr] at hrest
      cases e with
      | undetermined =>
        obtain ⟨s', W, hne, hclosure⟩ := hrest
        exact ⟨s', W, hne, .of_pass tame hpass hclosure⟩
      | _ => exact hrest.elim

/-! ## Verdicts -/

/-- The same verdict: models with the same values of all symbols and the same cells of all arrays,
no model on both sides, or both left undetermined. -/
def SameVerdict : Except PropagationError Solution → Except PropagationError Solution → Prop
  | .ok (.sat m), .ok (.sat m') =>
      (∀ x, m'.value? x = m.value? x) ∧ ∀ x i, m'.cell? x i = m.cell? x i
  | .ok (.unsat _), .ok (.unsat _) => True
  | .error (.undetermined _ _), .error (.undetermined _ _) => True
  | _, _ => False

/-- A term that waits idly is not accounted for by an earlier state in which nothing waits. -/
theorem State.Accounts.not_idle {m : State} (h : m.Accounts [] t) (kept : m.KeptBy s)
    (hm : m.Sound sig) (hs : s.Sound sig) (ht : Tame sig t .truth) : ¬ s.Idle t := by
  intro hidle
  cases hidle with
  | @implication _ a _ v eval unknown =>
    have hearlier : ∀ {u : Value}, m.eval a = .ok u → u.known = true → False := by
      intro u hu known
      cases (kept.eval hm hs ht.of_implies.1 hu known).symm.trans eval
      rw [known] at unknown
      cases unknown
    cases h with
    | waiting mem => cases mem
    | vacuous eval known => exact hearlier eval known
    | discharged eval known => exact hearlier eval known
    | holds judged => exact judged.notImplies _ _ _ rfl
  | judged judged eval =>
    cases h with
    | waiting mem => cases mem
    | conjunction => exact judged.notAnd _ _ rfl
    | vacuous | discharged => exact judged.notImplies _ _ _ rfl
    | holds _ eval' => cases (kept.eval hm hs ht eval' rfl).symm.trans eval

/-- Two states from which passes start, with the same assertions. -/
structure Matches (s : State) (work : List Term) (s' : State) (work' : List Term) : Prop where
  kept : s.KeptBy s'
  kept' : s'.KeptBy s
  same : ∀ t, t ∈ work ↔ t ∈ work'

namespace Matches

theorem symm (h : Matches s work s' W) : Matches s' W s work :=
  ⟨h.kept', h.kept, fun t => (h.same t).symm⟩

theorem extends_left (h : Matches s work s' W) (ext : Extends s' W s₂ W₂) :
    Extends s work s₂ W₂ :=
  ⟨h.kept.trans ext.kept, fun t ht => ext.accounted t ((h.same t).1 ht)⟩

/-- The least states are the same, so that something waits in both of them or in none. -/
theorem closure_nil {work' W : List Term} {m m' : State} (h : Matches s work s' work')
    (hm : Closure sig s work m []) (hm' : Closure sig s' work' m' W) : W = [] := by
  by_contra hne
  obtain ⟨t, ht⟩ := List.exists_mem_of_ne_nil W hne
  have hle := hm'.least m [] hm.stable (h.symm.extends_left hm.extends_start)
  have hge := hm.least m' W hm'.stable (h.extends_left hm'.extends_start)
  exact (hle.accounted t ht).not_idle hge.kept hm.stable.sound hm'.stable.sound
    (hm'.stable.tame t ht) (hm'.stable.idle t ht)

end Matches

theorem sameVerdict_of_closes {work' : List Term} {x x' : Except PropagationError Solution}
    (h : Matches s work s' work') (hx : Closes sig s work x) (hx' : Closes sig s' work' x') :
    SameVerdict x x' := by
  match x, hx, x', hx' with
  | .ok (.sat m), hm, .ok (.sat m'), hm' =>
    have hle := hm.least m' [] hm'.stable (h.extends_left hm'.extends_start)
    have hge := hm'.least m [] hm.stable (h.symm.extends_left hm.extends_start)
    exact ⟨hge.kept.value?_eq hle.kept, hge.kept.cell?_eq hle.kept⟩
  | .ok (.sat m), hm, .ok (.unsat _), hnone =>
    exact (hnone m [] hm.stable (h.symm.extends_left hm.extends_start)).elim
  | .ok (.sat m), hm, .error (.undetermined _ _), ⟨_, _, hne, hm'⟩ =>
    exact hne (h.closure_nil hm hm')
  | .ok (.unsat _), hnone, .ok (.sat m), hm =>
    exact (hnone m [] hm.stable (h.extends_left hm.extends_start)).elim
  | .ok (.unsat _), _, .ok (.unsat _), _ => trivial
  | .ok (.unsat _), hnone, .error (.undetermined _ _), ⟨_, _, _, hm⟩ =>
    exact (hnone _ _ hm.stable (h.extends_left hm.extends_start)).elim
  | .error (.undetermined _ _), ⟨_, _, hne, hm⟩, .ok (.sat m'), hm' =>
    exact hne (h.symm.closure_nil hm' hm)
  | .error (.undetermined _ _), ⟨_, _, _, hm⟩, .ok (.unsat _), hnone =>
    exact (hnone _ _ hm.stable (h.symm.extends_left hm.extends_start)).elim
  | .error (.undetermined _ _), _, .error (.undetermined _ _), _ => trivial

/-! ## Formulas -/

/-- Declarations alone are sound for every signature that lists the same symbols, and nothing is
known after them. -/
theorem sound_declareAll {f : Formula} (h : declareAll f = .ok s)
    (unique : (sig.map Prod.fst).Nodup) (same : ∀ d, d ∈ sig ↔ d ∈ f.signature) :
    s.Sound sig ∧ ∀ s' : State, s.KeptBy s' := by
  obtain ⟨hdeclares, hsorts⟩ := State.declareCommands_spec h
  have hvalues : s.values = {} := hdeclares.values
  have harrays : s.arrays = {} := hdeclares.arrays
  have hcells : s.cells = {} := hdeclares.cells
  refine ⟨⟨⟨fun x k k' hk hk' => ?_, fun x k hx => hsorts x k ((same _).1 hx), by simp [hvalues],
    by simp [harrays], by simp [hcells]⟩, by simp [harrays]⟩, fun s' => ⟨?_, ?_, ?_⟩⟩
  · exact congrArg Prod.snd (List.inj_on_of_nodup_map unique hk hk' rfl)
  · simp [hvalues]
  · simp [harrays]
  · simp [hcells]

/-- The order of the commands of a formula does not change the verdict. -/
theorem sameVerdict_solve_of_perm {f g : Formula} (sorted : f.WellSorted) (narrow : f.Narrow)
    (scalar : f.ComparesNoArrays) (perm : List.Perm f g) : SameVerdict (solve f) (solve g) := by
  have hsignature : List.Perm f.signature g.signature := perm.filterMap _
  have hterms : ∀ t, t ∈ assertedTerms f ↔ t ∈ assertedTerms g := fun t => by
    rw [mem_assertedTerms, mem_assertedTerms, perm.mem_iff]
  obtain ⟨s, hs⟩ := exists_declareAll sorted.unique
  obtain ⟨s', hs'⟩ := exists_declareAll ((hsignature.map _).nodup_iff.1 sorted.unique)
  obtain ⟨hsound, hkept⟩ := sound_declareAll hs sorted.unique fun _ => Iff.rfl
  obtain ⟨hsound', hkept'⟩ := sound_declareAll hs' sorted.unique fun d => hsignature.mem_iff
  have htame : ∀ t ∈ assertedTerms f, Tame f.signature t .truth := fun t ht => by
    rw [mem_assertedTerms] at ht
    exact ⟨sorted.asserted t ht, narrow t ht, scalar t ht⟩
  have hsolve : ∀ {f : Formula} {s : State}, declareAll f = .ok s →
      solve f = passes s (assertedTerms f) := fun hs => by rw [solve, hs]; rfl
  rw [hsolve hs, hsolve hs']
  exact sameVerdict_of_closes ⟨hkept s', hkept' s, hterms⟩ (closes_passes hsound htame)
    (closes_passes hsound' fun t ht => htame t ((hterms t).2 ht))

theorem narrow_firstCellIs {contents : List String} (h : ∀ digits ∈ contents, digits.length = 2) :
    (firstCellIs contents).Narrow ∧ (firstCellIs contents).ComparesNoArrays := by
  have hasserted : ∀ t, Command.assert t ∈ firstCellIs contents → ∃ digits, digits.length = 2 ∧
      t = .app .eq [] [.app .select [] [.symbol ⟨"a"⟩, .hex "00"], .hex digits] := by
    intro t ht
    simp only [firstCellIs, List.mem_cons, reduceCtorEq, List.mem_map, Command.assert.injEq,
      false_or] at ht
    obtain ⟨digits, hd, rfl⟩ := ht
    exact ⟨digits, h digits hd, rfl⟩
  have hleaf : ∀ {u v : Term}, (∀ op indices args, v ≠ .app op indices args) → u.Within v →
      u = v := fun leaf h => (Term.within_leaf leaf).1 h
  refine ⟨fun t ht u w hu hk => ?_, fun t ht op indices args hu hop u hmem n d hk => ?_⟩
  · obtain ⟨digits, hd, rfl⟩ := hasserted t ht
    simp only [Term.within_app, List.mem_cons, List.not_mem_nil, or_false, exists_eq_or_imp,
      exists_eq_left] at hu
    rcases hu with rfl | (rfl | hu | hu) | hu
    · obtain ⟨ks, -, rank⟩ := hk
      cases (rank.of_equality (by simp)).1
    · obtain ⟨ks, hks, rank⟩ := hk
      obtain ⟨n, d, rfl, hkind⟩ := rank.of_select
      cases hkind
      obtain ⟨ha, -⟩ := Term.haveKinds_pair.1 hks
      simp only [Term.HasKind, signature_firstCellIs, List.mem_singleton, Prod.mk.injEq, true_and,
        Kind.array.injEq] at ha
      omega
    · rw [hleaf (by simp) hu, Term.HasKind, signature_firstCellIs] at hk
      simp at hk
    · rw [hleaf (by simp) hu] at hk
      cases hk
      decide
    · rw [hleaf (by simp) hu] at hk
      cases hk
      omega
  · obtain ⟨digits, hd, rfl⟩ := hasserted t ht
    simp only [Term.within_app, List.mem_cons, List.not_mem_nil, or_false, exists_eq_or_imp,
      exists_eq_left] at hu
    rcases hu with heq | (heq | hu | hu) | hu
    · cases heq
      simp only [List.mem_cons, List.not_mem_nil, or_false] at hmem
      rcases hmem with rfl | rfl
      · obtain ⟨ks, -, rank⟩ := hk
        obtain ⟨_, _, -, hkind⟩ := rank.of_select
        cases hkind
      · cases hk
    · cases heq
      simp at hop
    all_goals cases hleaf (by simp) hu

/-- Two orders of two assertions that contradict one another: each order takes another content for
the first cell. -/
theorem sameVerdict_two_contents :
    SameVerdict (solve (firstCellIs ["01", "02"])) (solve (firstCellIs ["02", "01"])) :=
  sameVerdict_solve_of_perm (wellSorted_firstCellIs (by decide)) (narrow_firstCellIs (by decide)).1
    (narrow_firstCellIs (by decide)).2 (.cons _ (.swap _ _ _))

end CycleCheck.Propagation
