import CycleCheck.Proofs.Propagation.Stalling
import CycleCheck.Proofs.Propagation.Wrapping

/-!
What is known stays known. A state is kept by another one that has all its values, memories and
cells. A term with a known value has the same value, if it has any, in every state that keeps the
first one.
-/

namespace CycleCheck.Propagation

variable {sig : Signature} {s s' s'' : State}

/-! ## States -/

/-- Whatever a state knows, another one knows too. -/
structure State.KeptBy (s s' : State) : Prop where
  values : ∀ (x : String) v, s.values[x]? = some v → s'.values[x]? = some v
  arrays : ∀ (x : String) m, s.arrays[x]? = some m → s'.arrays[x]? = some m
  cells : ∀ (k : String × UInt64) v, s.cells[k]? = some v → s'.cells[k]? = some v

namespace State.KeptBy

theorem refl (s : State) : s.KeptBy s := ⟨fun _ _ h => h, fun _ _ h => h, fun _ _ h => h⟩

theorem trans (h : s.KeptBy s') (h' : s'.KeptBy s'') : s.KeptBy s'' where
  values x v hx := h'.values x v (h.values x v hx)
  arrays x m hx := h'.arrays x m (h.arrays x m hx)
  cells k v hk := h'.cells k v (h.cells k v hk)

theorem lookup (h : s.KeptBy s') {m : Memory} {i v : UInt64} (hv : s.lookup m i = some v) :
    s'.lookup m i = some v := by
  unfold State.lookup at hv ⊢
  split at hv
  · exact hv
  · exact h.cells _ _ hv

/-- States that keep one another know the same. -/
theorem getElem?_eq {α β : Type} [BEq α] [Hashable α] {m m' : Std.HashMap α β} {k : α}
    (h : ∀ v, m[k]? = some v → m'[k]? = some v) (h' : ∀ v, m'[k]? = some v → m[k]? = some v) :
    m[k]? = m'[k]? :=
  Option.ext fun v => ⟨h v, h' v⟩

theorem value?_eq (h : s.KeptBy s') (h' : s'.KeptBy s) (x : String) : s.value? x = s'.value? x :=
  getElem?_eq (h.values x) (h'.values x)

theorem cell?_eq (h : s.KeptBy s') (h' : s'.KeptBy s) (x : String) (i : UInt64) :
    s.cell? x i = s'.cell? x i := by
  have harray : s.arrays[x]? = s'.arrays[x]? := getElem?_eq (h.arrays x) (h'.arrays x)
  unfold State.cell?
  rw [harray]
  cases s'.arrays[x]? with
  | none => rfl
  | some m => exact Option.ext fun v => ⟨h.lookup, h'.lookup⟩

end State.KeptBy

/-! ## Values -/

/-- A value is the same in a later state if it was known before. -/
def Value.KeptBy (v v' : Value) : Prop := v.known = true → v' = v

variable {v v' w w' : Value} {vals vals' : List Value}

theorem Value.keptBy_unknown (v' : Value) : Value.unknown.KeptBy v' := nofun

theorem mem_of_keptBy (h : List.Forall₂ Value.KeptBy vals vals') (hv : v ∈ vals)
    (known : v.known = true) : v ∈ vals' := by
  induction h with
  | nil => cases hv
  | cons first _ ih =>
    rcases List.mem_cons.1 hv with rfl | hv
    · exact first known ▸ List.mem_cons_self
    · exact List.mem_cons_of_mem _ (ih hv)

theorem eq_of_keptBy (h : List.Forall₂ Value.KeptBy vals vals')
    (known : ∀ v ∈ vals, v.known = true) : vals' = vals := by
  induction h with
  | nil => rfl
  | cons first _ ih =>
    obtain ⟨hfirst, hrest⟩ := List.forall_mem_cons.1 known
    rw [first hfirst, ih hrest]

theorem conjunction_keptBy (h : List.Forall₂ Value.KeptBy vals vals') :
    (conjunction vals).KeptBy (conjunction vals') := by
  intro known
  by_cases hfalse : vals.any (fun v => v.known && !v.truth) = true
  · obtain ⟨v, hv, hfalse'⟩ := List.any_eq_true.1 hfalse
    have hknown : v.known = true := (Bool.and_eq_true_iff.1 hfalse').1
    have hlater : vals'.any (fun v => v.known && !v.truth) = true :=
      List.any_eq_true.2 ⟨v, mem_of_keptBy h hv hknown, hfalse'⟩
    rw [conjunction, conjunction, if_pos hfalse, if_pos hlater]
  · rw [conjunction, if_neg hfalse] at known
    split_ifs at known with hall
    · rw [eq_of_keptBy h (List.all_eq_true.1 hall)]
    · cases known

theorem disjunction_keptBy (h : List.Forall₂ Value.KeptBy vals vals') :
    (disjunction vals).KeptBy (disjunction vals') := by
  intro known
  by_cases htrue : vals.any (fun v => v.known && v.truth) = true
  · obtain ⟨v, hv, htrue'⟩ := List.any_eq_true.1 htrue
    have hknown : v.known = true := (Bool.and_eq_true_iff.1 htrue').1
    have hlater : vals'.any (fun v => v.known && v.truth) = true :=
      List.any_eq_true.2 ⟨v, mem_of_keptBy h hv hknown, htrue'⟩
    rw [disjunction, disjunction, if_pos htrue, if_pos hlater]
  · rw [disjunction, if_neg htrue] at known
    split_ifs at known with hall
    · rw [eq_of_keptBy h (List.all_eq_true.1 hall)]
    · cases known

/-- A definite answer to a comparison needs both values. -/
theorem Value.equal_keptBy (hv : v.KeptBy v') (hw : w.KeptBy w') (decided : v.equal w ≠ .maybe) :
    v'.equal w' = v.equal w := by
  have hknown : v.known = true ∧ w.known = true := by
    by_contra hopen
    refine decided ?_
    unfold Value.equal
    rw [if_pos]
    grind
  rw [hv hknown.1, hw hknown.2]

theorem chainEqual_keptBy (h : List.Forall₂ Value.KeptBy vals vals')
    (decided : chainEqual vals ≠ .maybe) : chainEqual vals' = chainEqual vals := by
  induction h with
  | nil => rfl
  | cons first rest ih =>
    cases rest with
    | nil => rfl
    | cons second rest =>
      have hequal := Value.equal_keptBy first second
      rw [chainEqual] at decided
      rw [chainEqual, chainEqual]
      grind

/-- A value is told apart from others, or found among them, for good. -/
theorem any_equal_keptBy (hv : v.KeptBy v') (h : List.Forall₂ Value.KeptBy vals vals') :
    (vals.any (fun w => v.equal w == .yes) = true →
      vals'.any (fun w => v'.equal w == .yes) = true) ∧
    ((∀ w ∈ vals, v.equal w = .no) → ∀ w ∈ vals', v'.equal w = .no) := by
  induction h with
  | nil => simp
  | cons first _ ih =>
    have hequal := Value.equal_keptBy hv first
    simp only [List.any_cons, List.forall_mem_cons]
    grind

theorem pairwiseDistinct_keptBy (h : List.Forall₂ Value.KeptBy vals vals')
    (decided : pairwiseDistinct vals ≠ .maybe) :
    pairwiseDistinct vals' = pairwiseDistinct vals := by
  induction h with
  | nil => rfl
  | @cons v v' rest rest' first hrest ih =>
    obtain ⟨hyes, hno⟩ := any_equal_keptBy first hrest
    rw [pairwiseDistinct] at decided
    rw [pairwiseDistinct, pairwiseDistinct]
    by_cases hany : rest.any (fun w => v.equal w == .yes) = true
    · rw [if_pos hany, if_pos (hyes hany)]
    · rw [if_neg hany] at decided ⊢
      cases hrest' : pairwiseDistinct rest with
      | maybe => simp [hrest'] at decided
      | no =>
        rw [ih (by simp [hrest']), hrest']
        exact ite_self _
      | yes =>
        rw [hrest'] at decided
        have hopen : ¬ rest.any (fun w => v.equal w == .maybe) = true := fun hopen => by
          simp [hopen] at decided
        -- neither equal nor undecided
        have hall : ∀ w ∈ rest, v.equal w = .no := by
          simp only [List.any_eq_true, not_exists, not_and, beq_iff_eq] at hany hopen
          intro w hw
          cases hequal : v.equal w with
          | no => rfl
          | yes => exact absurd hequal (hany w hw)
          | maybe => exact absurd hequal (hopen w hw)
        have hlater : ∀ r ≠ Tri.no, ¬ rest'.any (fun w => v'.equal w == r) = true := by
          intro r hr hany'
          obtain ⟨w, hw, hequal⟩ := List.any_eq_true.1 hany'
          rw [hno hall w hw] at hequal
          exact hr (beq_iff_eq.1 hequal).symm
        rw [if_neg (hlater .yes (by decide)), ih (by simp [hrest']), hrest']
        simp only [if_neg (hlater .maybe (by decide)), if_neg hopen]

/-! ## Operators -/

theorem State.strict_congr {op : Op} (hop : op ≠ .select) (indices : List Numeral) :
    s'.strict op indices vals = s.strict op indices vals := by
  unfold State.strict
  split <;> first | rfl | exact absurd rfl hop

/-- The cell that is chosen is the only thing that an operator takes from the state. -/
theorem State.strict_keptBy (h : s.KeptBy s') {op : Op} {indices : List Numeral}
    (hv : s.strict op indices vals = .ok v) (hv' : s'.strict op indices vals = .ok v') :
    v.KeptBy v' := by
  by_cases hop : op = .select
  · subst hop
    rcases vals with _ | ⟨a, _ | ⟨i, _ | ⟨_, _⟩⟩⟩
    · cases hv
    · cases hv
    · cases a with
      | array m =>
        cases hcell : s.lookup m i.word with
        | none =>
          simp only [State.strict, hcell] at hv
          cases hv
          exact Value.keptBy_unknown v'
        | some u =>
          simp only [State.strict, hcell, h.lookup hcell] at hv hv'
          cases hv
          cases hv'
          exact fun _ => rfl
      | unknown | bool | bits => cases hv
    · cases hv
  · rw [State.strict_congr hop, hv] at hv'
    cases hv'
    exact fun _ => rfl

theorem Tri.value_keptBy {r r' : Tri} (h : r ≠ .maybe → r' = r) : r.value.KeptBy r'.value := by
  intro known
  rw [h fun hmaybe => by rw [hmaybe] at known; cases known]

theorem State.applyOp_keptBy (h : s.KeptBy s') {op : Op} {indices : List Numeral}
    (hvals : List.Forall₂ Value.KeptBy vals vals') (hv : s.applyOp op indices vals = .ok v)
    (hv' : s'.applyOp op indices vals' = .ok v') : v.KeptBy v' := by
  unfold State.applyOp at hv
  split at hv
  · cases hv
    cases hv'
    exact conjunction_keptBy hvals
  · cases hv
    cases hv'
    exact disjunction_keptBy hvals
  · cases hv
    cases hv'
    exact Tri.value_keptBy (chainEqual_keptBy hvals)
  · cases hv
    cases hv'
    exact Tri.value_keptBy (pairwiseDistinct_keptBy hvals)
  · split_ifs at hv with hall
    · rw [eq_of_keptBy hvals (List.all_eq_true.1 hall), State.applyOp.eq_5 _ _ _ _ ‹_› ‹_› ‹_› ‹_›,
        if_pos hall] at hv'
      exact State.strict_keptBy h hv hv'
    · cases hv
      exact Value.keptBy_unknown v'

/-! ## Terms -/

theorem TermSort.Of.unique {τ τ' : TermSort} {k : Kind} (h : τ.Of k) (h' : τ'.Of k) : τ' = τ := by
  cases k with
  | truth =>
    cases τ with
    | bits => obtain ⟨_, h, -⟩ := h; cases h
    | array => obtain ⟨_, _, h, -⟩ := h; cases h
  | bits w => rw [h.eq_bits, h'.eq_bits]
  | array a d => rw [h.eq_array, h'.eq_array]

theorem State.symbol_keptBy (h : s.KeptBy s') (wk : s.WellKinded sig) (wk' : s'.WellKinded sig)
    {x : String} {k : Kind} (hx : (x, k) ∈ sig) (hv : s.symbol x = .ok v)
    (hv' : s'.symbol x = .ok v') : v.KeptBy v' := by
  obtain ⟨τ, hτ, hof⟩ := wk.declared x k hx
  obtain ⟨τ', hτ', hof'⟩ := wk'.declared x k hx
  have hsort : s'.sorts[x]? = s.sorts[x]? := by rw [hτ, hτ', hof.unique hof']
  rcases State.symbol_eq_ok hv with rfl | ⟨a, d, m, hs, hm, rfl⟩ | ⟨w, u, hs, hu, rfl⟩
  · exact Value.keptBy_unknown v'
  · simp only [State.symbol, hsort, hs, h.arrays x m hm] at hv'
    cases hv'
    exact fun _ => rfl
  · simp only [State.symbol, hsort, hs, h.values x u hu] at hv'
    cases hv'
    exact fun _ => rfl

theorem implication_keptBy {va vc va' vc' : Value} (ha : va.KeptBy va') (hc : vc.KeptBy vc') :
    (implication va vc).KeptBy (implication va' vc') := by
  intro known
  unfold implication at known ⊢
  split_ifs at known with htrue hboth
  · simp only [Bool.and_eq_true] at htrue
    simp [hc htrue.1, htrue]
  · simp only [Bool.and_eq_true] at hboth
    rw [ha hboth.1, hc hboth.2]
  · cases known

/-- A known value of a term is the value of the term in every later state that gives it one. -/
theorem State.eval_keptBy_and_evalAll (h : s.KeptBy s') (wk : s.WellKinded sig)
    (wk' : s'.WellKinded sig) :
    (∀ t : Term, ∀ k v v', t.HasKind sig k → s.eval t = .ok v → s'.eval t = .ok v' →
      v.KeptBy v') ∧
    ∀ ts : List Term, ∀ ks vs vs', Term.HaveKinds sig ts ks → s.evalAll ts = .ok vs →
      s'.evalAll ts = .ok vs' → List.Forall₂ Value.KeptBy vs vs' := by
  refine State.eval.mutual_induct
    (fun t => ∀ k v v', t.HasKind sig k → s.eval t = .ok v → s'.eval t = .ok v' → v.KeptBy v')
    (fun ts => ∀ ks vs vs', Term.HaveKinds sig ts ks → s.evalAll ts = .ok vs →
      s'.evalAll ts = .ok vs' → List.Forall₂ Value.KeptBy vs vs')
    ?bool ?binary ?hex ?symbol ?numeral ?implies ?ite ?app ?nil ?cons
  case bool | binary | hex =>
    intro _ k v v' _ hv hv'
    rw [State.eval] at hv hv'
    cases hv.symm.trans hv'
    exact fun _ => rfl
  case symbol =>
    intro x k v v' hk hv hv'
    rw [State.eval] at hv hv'
    exact State.symbol_keptBy h wk wk' hk hv hv'
  case numeral =>
    intro n k v v' hk
    cases hk
  case implies =>
    intro indices a c iha ihc k v v' hk hv hv'
    obtain ⟨ks, hks, rank⟩ := hk
    obtain ⟨rfl, -⟩ := rank.of_implies
    obtain ⟨hka, hkc⟩ := Term.haveKinds_pair.1 hks
    obtain ⟨va, hva, hv⟩ := State.eval_implies hv
    obtain ⟨va', hva', hv'⟩ := State.eval_implies hv'
    have ha := iha .truth va va' hka hva hva'
    rcases hv with ⟨hfalse, rfl⟩ | ⟨hopen, vc, hvc, rfl⟩
    · rcases hv' with ⟨-, rfl⟩ | ⟨hopen', -⟩
      · exact fun _ => rfl
      · exact absurd (ha hfalse.1 ▸ hfalse) hopen'
    · rcases hv' with ⟨hfalse', rfl⟩ | ⟨-, vc', hvc', rfl⟩
      · -- the antecedent is only now known to be false
        intro known
        unfold implication at known ⊢
        split_ifs at known ⊢ with htrue hboth
        · rfl
        · simp only [Bool.and_eq_true] at hboth
          exact absurd (ha hboth.1 ▸ hfalse') hopen
        · cases known
      · exact implication_keptBy ha (ihc .truth vc vc' hkc hvc hvc')
  case ite =>
    intro indices c a b ihc iha ihb k v v' hk hv hv'
    obtain ⟨ks, hks, rank⟩ := hk
    cases rank.of_ite
    obtain ⟨hkc, hka, hkb⟩ := Term.haveKinds_triple.1 hks
    have hterm := hv'
    obtain ⟨vc, hvc, hv⟩ := State.eval_ite hv
    obtain ⟨vc', hvc', hv'⟩ := State.eval_ite hv'
    have hc := ihc .truth vc vc' hkc hvc hvc'
    rcases hv with ⟨hknown, hv⟩ | ⟨-, va, vb, hva, hvb, ⟨hequal, rfl⟩ | rfl⟩
    · obtain rfl := hc hknown
      obtain ⟨-, hv'⟩ | ⟨hunknown, -⟩ := hv'
      · split_ifs at hv hv'
        · exact iha k v v' hka hv hv'
        · exact ihb k v v' hkb hv hv'
      · rw [hknown] at hunknown
        cases hunknown
    · -- whichever branch is taken later, it has the value of both
      intro known
      have hwidth := (State.eval_hasWidth_and_evalAll wk).1
      obtain rfl := Value.eq_of_equal (hwidth a k v hka hva) (hwidth b k vb hkb hvb) hequal
      rcases hv' with ⟨-, hv'⟩ | ⟨hunknown, va', vb', hva', hvb', -⟩
      · split_ifs at hv'
        · exact iha k v v' hka hva hv' known
        · exact ihb k v v' hkb hvb hv' known
      · obtain rfl := iha k v va' hka hva hva' known
        obtain rfl := ihb k va' vb' hkb hvb hvb' known
        rw [State.eval_ite_of_unknown hvc' hunknown, hva', hvb'] at hterm
        cases hterm
        rw [choice, hequal]
        rfl
    · exact Value.keptBy_unknown v'
  case app =>
    intro op indices args _ _ ih k v v' hk hv hv'
    obtain ⟨ks, hks, rank⟩ := hk
    rw [State.eval.eq_8 _ _ _ _ ‹_› ‹_›] at hv hv'
    obtain ⟨vals, hvals, hv⟩ := exists_ok_of_bind hv
    obtain ⟨vals', hvals', hv'⟩ := exists_ok_of_bind hv'
    exact State.applyOp_keptBy h (ih ks vals vals' hks hvals hvals') hv hv'
  case nil =>
    intro ks vs vs' _ hvs hvs'
    rw [State.evalAll] at hvs hvs'
    cases hvs
    cases hvs'
    exact .nil
  case cons =>
    intro t rest iht ihrest ks vs vs' hks hvs hvs'
    obtain ⟨k, ks, rfl, hk, hks⟩ := hks
    rw [State.evalAll] at hvs hvs'
    obtain ⟨v, hv, hvs⟩ := exists_ok_of_bind hvs
    obtain ⟨us, hus, hvs⟩ := exists_ok_of_bind hvs
    obtain ⟨v', hv', hvs'⟩ := exists_ok_of_bind hvs'
    obtain ⟨us', hus', hvs'⟩ := exists_ok_of_bind hvs'
    cases hvs
    cases hvs'
    exact .cons (iht k v v' hk hv hv') (ihrest ks us us' hks hus hus')

/-! ## Definitions -/

/-- A definition is fresh, so nothing that was known is lost. -/
theorem State.Defines.keptBy_add (wk : s.WellKinded sig) {target other : Term} {k : Kind}
    {f : Definition} (h : s.Defines target other f) (ht : target.HasKind sig k) :
    s.KeptBy (s.add f) := by
  have hinsert : ∀ {α β : Type} [BEq α] [Hashable α] [LawfulBEq α] [LawfulHashable α]
      {m : Std.HashMap α β} {x : α} {v : β}, (∀ u, m[x]? = some u → u = v) →
      ∀ y u, m[y]? = some u → (m.insert x v)[y]? = some u := fun known =>
    ((forall_getElem?_insert known).1 fun _ _ h => h).2
  cases h with
  | value _ fresh _ => exact ⟨hinsert (by simp [fresh]), fun _ _ h => h, fun _ _ h => h⟩
  | array _ fresh _ => exact ⟨fun _ _ h => h, hinsert (by simp [fresh]), fun _ _ h => h⟩
  | @cell x _ _ _ _ _ _ _ _ sort rooted _ _ _ =>
    obtain ⟨ks, hks, rank⟩ := ht
    obtain ⟨n, d, rfl, -⟩ := rank.of_select
    obtain ⟨hx, -⟩ := Term.haveKinds_pair.1 hks
    obtain ⟨τ, hτ, hof⟩ := wk.declared x.name _ hx
    cases sort.symm.trans hτ
    cases hof.eq_array
    obtain ⟨-, -, hfree, hknown, -⟩ := wk.root_of_defines hx rooted
    exact ⟨fun _ _ h => h, hinsert hknown, hinsert (by simp [hfree])⟩

end CycleCheck.Propagation
