import CycleCheck.Proofs.Propagation.Stalling

/-!
Answers about formulas that stall. What waits for words without a value is left pending by every
pass, and it is all the same what it says. So two formulas that stall in states that agree give the
same answer, also after further assertions about what they know.
-/

namespace CycleCheck.Propagation

variable {sig sig' : Signature} {H : String → Prop} {I : Interpretation} {Δ : Scope} {V : View}
  {s s' : State} {p q : Progress} {ts : List Term}

/-! ## Answers -/

/-- The same answer: the same values of all words and of the cells of the arrays of a view, no model
on both sides, both left undetermined, or the same error. -/
def SameAnswer (V : View) :
    Except PropagationError Solution → Except PropagationError Solution → Prop
  | .ok (.sat m), .ok (.sat m') => (∀ x, m'.value? x = m.value? x) ∧
      ∀ x, V.arrays x → ∀ i : UInt64, i.toNat < 2 ^ V.bits → m'.cell? x i = m.cell? x i
  | .ok (.unsat _), .ok (.unsat _) => True
  | .error (.undetermined _ _), .error (.undetermined _ _) => True
  | .error e, .error e' => e = e'
  | _, _ => False

theorem sameAnswer_error (V : View) (e : PropagationError) :
    SameAnswer V (.error e) (.error e) := by
  cases e <;> trivial

/-- A pass over assertions that wait and then over terms of the view. -/
theorem pass_append {S : List Term} (hS : ∀ t ∈ S, Stuck sig H t) (hs : s.Veils sig H)
    (ts : List Term) : pass s (S ++ ts) = Progress.settleAll ⟨s, S.toArray⟩ ts := by
  have hfirst := Progress.settleAll_pending (p := { state := s }) hS hs
  rw [Progress.settleAll_eq_foldlM] at hfirst
  rw [pass, List.foldlM_append, hfirst, Progress.settleAll_eq_foldlM]
  simp [bind, Except.bind]

/-- What waits does not get a value from terms of the view. -/
theorem Progress.Gains.veils {left : List Term} {count : Nat} (h : p.Gains V q left count)
    (hdisjoint : ∀ x, H x → ¬ V.words x) (hp : p.state.Veils sig H) : q.state.Veils sig H := by
  refine ⟨?_, fun x hx => (h.others x (hdisjoint x hx)).trans (hp.hidden x hx)⟩
  rw [h.sorts]
  exact hp.declared

/-- Passes over assertions that wait, on both sides or on none, and over terms of the view. -/
theorem sameAnswer_passes {S S' ts : List Term} (hS : ∀ t ∈ S, Stuck sig H t)
    (hS' : ∀ t ∈ S', Stuck sig' H t) (hempty : S = [] ↔ S' = [])
    (hdisjoint : ∀ x, H x → ¬ V.words x) (h : s.Resembles V s') (hs : s.Veils sig H)
    (hs' : s'.Veils sig' H) (hts : ∀ t ∈ ts, t.Observes V) :
    SameAnswer V (passes s (S ++ ts)) (passes s' (S' ++ ts)) := by
  induction hweight : weightAll (S ++ ts) using Nat.strong_induction_on generalizing s s' ts with
  | h n ih =>
    subst hweight
    by_cases hnil : S ++ ts = []
    · obtain ⟨rfl, rfl⟩ := List.append_eq_nil_iff.1 hnil
      rw [hempty.1 rfl, List.append_nil, passes_nil, passes_nil]
      exact ⟨h.values, fun x hx i hi => h.cell?_eq hx hi⟩
    · have hnil' : S' ++ ts ≠ [] := fun heq => by
        obtain ⟨hleft, rfl⟩ := List.append_eq_nil_iff.1 heq
        exact hnil (by rw [hempty.2 hleft, List.append_nil])
      have halike : Progress.Alike V ⟨s, S.toArray⟩ ⟨s', S'.toArray⟩ (pass s (S ++ ts))
          (pass s' (S' ++ ts)) := by
        rw [pass_append hS hs, pass_append hS' hs']
        exact Progress.alike_settle_and_settleAll.2 _ ts _ h hts
      rw [passes_eq (by simpa using hnil), passes_eq (by simpa using hnil')]
      generalize hr : pass s (S ++ ts) = r at halike
      generalize hr' : pass s' (S' ++ ts) = r' at halike
      cases halike with
      | error e =>
        cases e with
        | contradiction t => trivial
        | failed e => exact sameAnswer_error V e
      | @ok q q' left count state observes gains gains' =>
        -- one side is stuck if and only if the other one is
        have hstuck : ∀ {S : List Term} {p : Progress} {s : State},
            Progress.Gains V ⟨s, S.toArray⟩ p left count →
            ((p.pending.size = (S ++ ts).length ∧ p.state.definitions = s.definitions) ↔
              left.length = ts.length ∧ count = 0) := by
          intro S p s hp
          rw [← Array.length_toList, hp.pending, hp.definitions]
          simp
        simp only [hstuck gains, hstuck gains']
        split_ifs with hend
        · trivial
        · have hlt : weightAll (S ++ left) < weightAll (S ++ ts) := by
            have hless := weightAll_pass_lt hr ((hstuck gains).not.2 hend)
            rwa [gains.pending] at hless
          rw [gains.pending, gains'.pending]
          exact ih _ hlt state (gains.veils hdisjoint hs) (gains'.veils hdisjoint hs') observes rfl

/-- What is known of words is determined by the interpretation. -/
theorem values_eq_of_knowing (hp : Progress.Knowing sig I Δ { state := s })
    (hp' : Progress.Knowing sig' I Δ { state := s' }) (y : String) :
    s'.values[y]? = s.values[y]? := by
  by_cases hfree : Δ.Free y
  · exact (hp'.free y hfree).1.trans (hp.free y hfree).1.symm
  · obtain ⟨k, hk⟩ := not_forall_not.1 hfree
    have hword : ∀ {sig : Signature} {s : State}, Progress.Knowing sig I Δ { state := s } →
        (∃ w, k = .bits w) ∨ s.values[y]? = none := by
      intro sig s hp
      cases hvalue : s.values[y]? with
      | none => exact .inr rfl
      | some v =>
        obtain ⟨w, hsig, -⟩ := hp.state.values y v hvalue
        exact .inl ⟨w, hp.state.functional _ _ _ (hp.declared _ _ hk) hsig⟩
    rcases hword hp with ⟨w, rfl⟩ | hnone
    · obtain ⟨v, hv⟩ := hp.exists_value hk
      obtain ⟨v', hv'⟩ := hp'.exists_value hk
      have hnumber := (hp.agrees.values y v hv).symm.trans (hp'.agrees.values y v' hv')
      have hsame : v = v' := UInt64.toNat_inj.1 (Option.some.inj hnumber)
      exact hv'.trans (hsame ▸ hv.symm)
    · rcases hword hp' with ⟨w, rfl⟩ | hnone'
      · obtain ⟨v, hv⟩ := hp.exists_value hk
        cases hv.symm.trans hnone
      · exact hnone'.trans hnone.symm

/-- What is known of an array is determined by the interpretation. -/
theorem memories_of_knowing (hp : Progress.Knowing sig I Δ { state := s })
    (hp' : Progress.Knowing sig' I Δ { state := s' }) (fits : I.Fits sig) (fits' : I.Fits sig')
    {y : String} {n d : Nat} (narrow : n ≤ 64) (hsig : (y, .array n d) ∈ sig) :
    s.BothKnow s' n y ∨ s.BothOwn s' y := by
  by_cases hfree : Δ.Free y
  · right
    have hcells : ∀ {sig : Signature} {s : State}, Progress.Knowing sig I Δ { state := s } →
        s.arrays[y]? = none ∧ ∀ i : UInt64, s.cells[(y, i)]? = none := by
      intro sig s hp
      have hnone : s.arrays[y]? = none := (hp.free y hfree).2
      refine ⟨hnone, fun i => ?_⟩
      cases hcell : s.cells[(y, i)]? with
      | none => rfl
      | some v =>
        obtain ⟨_, _, -, -, -, hroot⟩ := hp.state.cells y i v hcell
        cases hnone.symm.trans hroot
    obtain ⟨harray, hcell⟩ := hcells hp
    obtain ⟨harray', hcell'⟩ := hcells hp'
    exact ⟨harray'.trans harray.symm, by simp [harray], fun i => (hcell' i).trans (hcell i).symm,
      fun _ => hcell⟩
  · left
    obtain ⟨k, hk⟩ := not_forall_not.1 hfree
    obtain rfl : k = .array n d := hp.state.functional _ _ _ (hp.declared _ _ hk) hsig
    obtain ⟨m, hm, hfull⟩ := hp.exists_memory hk
    obtain ⟨m', hm', hfull'⟩ := hp'.exists_memory hk
    have hfits : ∀ {sig : Signature} {s : State} {m : Memory},
        Progress.Knowing sig I Δ { state := s } → s.arrays[y]? = some m → m.Fits sig n d := by
      intro sig s m hp hm
      obtain ⟨_, _, hsig, hfit, -⟩ := hp.state.arrays y m hm
      cases hp.state.functional _ _ _ (hp.declared _ _ hk) hsig
      exact hfit
    have hfit := hfits hp hm
    have hfit' := hfits hp' hm'
    refine ⟨m, m', hm, hm', hfit.data.trans hfit'.data.symm, fun i hi => ?_⟩
    obtain ⟨v, hv⟩ := Option.isSome_iff_exists.1 (hfull i hi)
    obtain ⟨v', hv'⟩ := Option.isSome_iff_exists.1 (hfull' i hi)
    have hcell := hp.agrees.cell?_of_lookup fits hfit ⟨narrow, hi⟩ hv
    have hcell' := hp'.agrees.cell?_of_lookup fits' hfit' ⟨narrow, hi⟩ hv'
    rw [← hp.agrees.arrays y m hm] at hcell
    rw [← hp'.agrees.arrays y m' hm', hcell] at hcell'
    have hsame : v = v' := UInt64.toNat_inj.1 (Option.some.inj hcell')
    exact ⟨hfull i hi, hv.trans (hsame ▸ hv'.symm)⟩

/-- States with the same knowledge of one interpretation agree. -/
theorem resembles_of_knowing (hp : Progress.Knowing sig I Δ { state := s })
    (hp' : Progress.Knowing sig' I Δ { state := s' }) (fits : I.Fits sig)
    (same : ∀ x k, (x, k) ∈ sig ↔ (x, k) ∈ sig') (hV : V.Declared sig) : s.Resembles V s' := by
  have hveils := hp.veils (H := fun _ => False) fun _ h => h.elim
  have hveils' := hp'.veils (H := fun _ => False) fun _ h => h.elim
  refine ⟨fun x hx => ?_, fun x hx a d => ?_, fun x hx w => ?_, values_eq_of_knowing hp hp',
    fun x hx => ?_⟩
  · rcases hx with hx | hx
    · obtain ⟨w, hsig⟩ := hV.words x hx
      exact (hveils'.sort_word ((same _ _).1 hsig)).trans (hveils.sort_word hsig).symm
    · obtain ⟨d, hsig⟩ := hV.arrays x hx
      exact (hveils'.sort_array ((same _ _).1 hsig)).trans (hveils.sort_array hsig).symm
  · obtain ⟨w, hsig⟩ := hV.words x hx
    have hsort : s.sorts[x]? = _ := hveils.sort_word hsig
    simp [hsort]
  · obtain ⟨d, hsig⟩ := hV.arrays x hx
    have hsort : s.sorts[x]? = _ := hveils.sort_array hsig
    simp [hsort]
  · obtain ⟨d, hsig⟩ := hV.arrays x hx
    exact memories_of_knowing hp hp' fits (fun y k hy => fits y k ((same y k).2 hy)) V.narrow hsig

/-! ## Further assertions -/

theorem declareAll_append_asserts (f : Formula) (ts : List Term) :
    declareAll (f ++ ts.map .assert) = declareAll f := by
  have hquiet : ∀ s : State, (ts.map Command.assert).foldlM State.declareCommand s = .ok s := by
    intro s
    induction ts with
    | nil => rfl
    | cons t rest ih => exact ih
  have hfold : ∀ g, declareAll g = g.foldlM State.declareCommand {} := fun _ => rfl
  rw [hfold, hfold, List.foldlM_append]
  cases f.foldlM State.declareCommand {} with
  | error e => rfl
  | ok s => exact hquiet s

/-- What a formula and further assertions come to: the first pass comes to the further assertions
with the rest of the formula waiting. -/
def resume (p : Progress) (ts : List Term) : Except PropagationError Solution :=
  match p.settleAll ts with
  | .error (.failed e) => .error e
  | .error (.contradiction t) => .ok (.unsat t)
  | .ok q => passes q.state q.pending.toList

/-- The progress of a formula that stalls. -/
structure Stalled (f : Formula) (H : String → Prop) (I : Interpretation) (Δ : Scope)
    (p : Progress) : Prop where
  knowing : ({ state := p.state } : Progress).Knowing f.signature I Δ
  waits : ∀ t ∈ p.pending.toList, Stuck f.signature H t
  solve_eq : ∀ ts : List Term, solve (f ++ ts.map .assert) = resume p ts

theorem Stalls.exists_stalled {f : Formula} (unique : (f.signature.map Prod.fst).Nodup)
    (h : Stalls f.signature H I (fun _ _ => False) (assertedTerms f) Δ)
    (known : ∃ y w, Δ y (.bits w)) : ∃ p, Stalled f H I Δ p := by
  obtain ⟨s, hs⟩ := exists_declareAll unique
  have hstart := knowing_of_declareAll unique hs I
  obtain ⟨p, hp, hknows, hwaits⟩ := h _ hstart
  -- nothing is known at the start
  have hmoved : s.definitions < p.state.definitions := by
    refine (Progress.definitions_settle_and_settleAll.2 _ _ p hp).resolve_right fun heq => ?_
    obtain ⟨y, w, hy⟩ := known
    obtain ⟨v, hv⟩ := hknows.exists_value hy
    have hnone : s.values[y]? = none := (hstart.free y fun _ h => h).1
    have hsame : p.state.values[y]? = s.values[y]? := congrArg (fun s : State => s.values[y]?) heq
    cases hv.symm.trans (hsame.trans hnone)
  refine ⟨p, hknows, hwaits, fun ts => ?_⟩
  have hterms : assertedTerms (f ++ ts.map .assert) = assertedTerms f ++ ts := by
    simpa using assertedTerms_map_assert (fun t : Term => t) ts
  have hsolve : solve (f ++ ts.map .assert) = passes s (assertedTerms f ++ ts) := by
    rw [solve, declareAll_append_asserts, hs, ← hterms]
    rfl
  have hpass : pass s (assertedTerms f ++ ts) = p.settleAll ts := by
    rw [Progress.settleAll_eq_foldlM] at hp
    rw [pass, List.foldlM_append, hp, Progress.settleAll_eq_foldlM]
    rfl
  have hnonempty : ¬ (assertedTerms f ++ ts).isEmpty = true := fun hempty => by
    rw [List.isEmpty_iff, List.append_eq_nil_iff] at hempty
    rw [hempty.1, Progress.settleAll] at hp
    cases hp
    exact Nat.lt_irrefl _ hmoved
  rw [hsolve, passes_eq hnonempty, hpass, resume]
  cases hr : p.settleAll ts with
  | error e => cases e <;> rfl
  | ok q =>
    have hle : p.state.definitions ≤ q.state.definitions := by
      rcases Progress.definitions_settle_and_settleAll.2 p ts q hr with hlt | heq
      · exact Nat.le_of_lt hlt
      · rw [heq]
    exact if_neg fun hstuck => by omega

/-- Nothing waits if the formula is found to be satisfiable, and only then. -/
theorem Stalled.sat_iff {f : Formula} (h : Stalled f H I Δ p) (hidden : ∀ x, H x → Δ.Free x) :
    p.pending.toList = [] ↔ ∃ m, solve f = .ok (.sat m) := by
  have hsolve : solve f = passes p.state p.pending.toList := by
    have hnone := h.solve_eq []
    rwa [List.map_nil, List.append_nil, resume, Progress.settleAll] at hnone
  rw [hsolve]
  constructor
  · intro hempty
    exact ⟨_, by rw [hempty, passes_nil]⟩
  · rintro ⟨m, hm⟩
    by_contra hne
    have hpass := pass_append h.waits (h.knowing.veils hidden) []
    rw [List.append_nil, Progress.settleAll] at hpass
    rw [passes_eq (by simpa using hne), hpass] at hm
    simp at hm

/-- Two formulas with the same declarations that stall with the same knowledge give the same answer,
also after further assertions about what they know. -/
theorem sameAnswer_of_stalled {f f' : Formula} {p p' : Progress} (h : Stalled f H I Δ p)
    (h' : Stalled f' H I Δ p') (hidden : ∀ x, H x → Δ.Free x) (hdisjoint : ∀ x, H x → ¬ V.words x)
    (fits : I.Fits f.signature) (same : ∀ x k, (x, k) ∈ f.signature ↔ (x, k) ∈ f'.signature)
    (hV : V.Declared f.signature)
    (hsat : (∃ m, solve f = .ok (.sat m)) ↔ ∃ m, solve f' = .ok (.sat m))
    (hts : ∀ t ∈ ts, t.Observes V) :
    SameAnswer V (solve (f ++ ts.map .assert)) (solve (f' ++ ts.map .assert)) := by
  have hempty : p.pending.toList = [] ↔ p'.pending.toList = [] := by
    rw [h.sat_iff hidden, h'.sat_iff hidden, hsat]
  have halike := Progress.alike_settle_and_settleAll.2 p ts p'
    (resembles_of_knowing h.knowing h'.knowing fits same hV) hts
  rw [h.solve_eq, h'.solve_eq, resume, resume]
  generalize p.settleAll ts = r at halike
  generalize p'.settleAll ts = r' at halike
  cases halike with
  | error e =>
    cases e with
    | contradiction t => trivial
    | failed e => exact sameAnswer_error V e
  | @ok q q' left count state observes gains gains' =>
    change SameAnswer V (passes q.state q.pending.toList) (passes q'.state q'.pending.toList)
    rw [gains.pending, gains'.pending]
    exact sameAnswer_passes h.waits h'.waits hempty hdisjoint state
      (gains.veils hdisjoint (h.knowing.veils hidden))
      (gains'.veils hdisjoint (h'.knowing.veils hidden)) observes

end CycleCheck.Propagation
