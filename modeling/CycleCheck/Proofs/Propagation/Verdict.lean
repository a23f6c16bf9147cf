import CycleCheck.Proofs.Propagation.Soundness

/-!
What a verdict is worth. A formula found unsatisfiable has no model at all; the model found for a
satisfiable formula can be completed by any values for what it leaves open, and every completion
satisfies the formula.
-/

namespace CycleCheck.Propagation

theorem solve_decided {f : Formula} (sorted : f.WellSorted)
    (short : f.ExtensionsBelow extensionBound) {r : Solution} (h : solve f = .ok r) :
    match r with
    | .sat m => m.WellKinded f.signature ∧ ∀ I : Interpretation, I.Fits f.signature →
        (m.Agrees I ↔ I.Satisfies f)
    | .unsat _ => ∀ I : Interpretation, I.Fits f.signature → ¬ I.Satisfies f := by
  obtain ⟨s, hs, h⟩ := exists_ok_of_bind h
  obtain ⟨hwk, hall⟩ := declareAll_spec sorted.unique hs
  have hwork : ∀ t ∈ assertedTerms f, Assertable f.signature t := fun t ht =>
    ⟨sorted.asserted t (mem_assertedTerms.1 ht), short t (mem_assertedTerms.1 ht)⟩
  have hsat : ∀ I : Interpretation, (∀ t ∈ assertedTerms f, I.Holds t) ↔ I.Satisfies f :=
    fun I => by simp only [mem_assertedTerms, Interpretation.Satisfies]
  have hdecided := decided_passes hwk hwork
  rw [h] at hdecided
  cases r with
  | sat m => exact ⟨hdecided.1, fun I fits => by simp [hdecided.2 I fits, hall I, hsat I]⟩
  | unsat t => exact fun I fits hI => hdecided I fits (hall I) ((hsat I).2 hI)

/-! ## Completion of a model -/

/-- The known cell of a root at a position of any size. -/
def State.rootCell? (s : State) (r : String) (i : Nat) : Option UInt64 :=
  if i < 2 ^ 64 then s.cells[(r, UInt64.ofNat i)]? else none

/-- An interpretation with the known values of symbols and the known cells of roots put in. -/
def State.overlay (s : State) (J : Interpretation) : Interpretation := fun x =>
  match J x with
  | .bits w v => .bits w (((s.values[x]?).map fun u => .ofNat w u.toNat).getD v)
  | .array a d cells => .array a d fun i =>
      ((s.rootCell? x i.toNat).map fun u => .ofNat d u.toNat).getD (cells i)
  | m => m

/-- An interpretation changed to agree with a state. -/
def State.complete (s : State) (J : Interpretation) : Interpretation := fun x =>
  match s.arrays[x]? with
  | some m => m.meaning (s.overlay J)
  | none => s.overlay J x

variable {sig : Signature} {s : State} {J : Interpretation}

theorem State.kind_overlay (x : String) : (s.overlay J x).kind = (J x).kind := by
  unfold State.overlay
  split <;> simp_all

theorem State.number?_overlay {x : String} {n : Nat} (hx : (J x).kind = .bits n) {v : UInt64}
    (hv : s.values[x]? = some v) (fit : WordFits v n) :
    (s.overlay J x).number? = some v.toNat := by
  obtain ⟨b, hb⟩ := Meaning.exists_bits_of_kind hx
  simp [State.overlay, hb, hv, Nat.mod_eq_of_lt fit.2]

theorem State.cell?_overlay {r : String} {a d : Nat} (hr : (J r).kind = .array a d) {i : Nat}
    (hi : i < 2 ^ a) : (s.overlay J r).cell? i =
      ((s.rootCell? r i).map fun v => v.toNat % 2 ^ d).or ((J r).cell? i) := by
  obtain ⟨cells, hcells⟩ := Meaning.exists_array_of_kind hr
  simp only [State.overlay, hcells, Meaning.cell?, BitVec.toNat_ofNat, Nat.mod_eq_of_lt hi]
  cases s.rootCell? r i <;> simp

namespace State.WellKinded

variable (wk : s.WellKinded sig)
include wk

/-- Roots are completed by their known cells alone. -/
theorem complete_root {r : String} {m : Memory} (h : s.arrays[r]? = some m) (hr : m.root = r) :
    s.complete J r = s.overlay J r := by
  obtain ⟨-, -, -, -, hbase⟩ := wk.arrays r m h
  rw [hr, h, Option.some.injEq] at hbase
  rw [State.complete, h]
  change m.meaning _ = _
  rw [hbase]
  simp [Memory.meaning, Memory.base, hr]

theorem complete_fits (fits : J.Fits sig) : (s.complete J).Fits sig := by
  intro x k hx
  unfold State.complete
  split
  · next m hm =>
    obtain ⟨a, d, hx', hfit, -⟩ := wk.arrays x m hm
    rw [m.kind_meaning, State.kind_overlay, fits m.root _ hfit.root, wk.functional x _ _ hx' hx]
  · rw [State.kind_overlay, fits x k hx]

theorem complete_agrees (fits : J.Fits sig) : s.Agrees (s.complete J) where
  values := by
    intro x v hv
    obtain ⟨n, hx, hfit⟩ := wk.values x v hv
    have hnone : s.arrays[x]? = none := by
      refine Option.eq_none_iff_forall_not_mem.2 fun m hm => ?_
      obtain ⟨a, d, hx', -⟩ := wk.arrays x m hm
      cases wk.functional x _ _ hx hx'
    rw [State.complete, hnone]
    exact State.number?_overlay (fits x _ hx) hv hfit
  arrays := by
    intro x m hm
    obtain ⟨a, d, -, -, hbase⟩ := wk.arrays x m hm
    have hroot : s.complete J m.root = s.overlay J m.root := wk.complete_root hbase rfl
    rw [Memory.meaning, hroot, State.complete, hm]
    rfl
  cells := by
    intro r i v hv
    obtain ⟨a, d, hr, hi, hfit, hmem⟩ := wk.cells r i v hv
    rw [wk.complete_root hmem rfl, State.cell?_overlay (fits r _ hr) hi.2]
    simp [State.rootCell?, i.toNat_lt, hv, Nat.mod_eq_of_lt hfit.2]

theorem complete_eq_of_open {x : String} (hvalue : s.value? x = none)
    (harray : s.arrays[x]? = none) : s.complete J x = J x := by
  have hcells : ∀ i, s.rootCell? x i = none := by
    intro i
    unfold State.rootCell?
    split_ifs
    · refine Option.eq_none_iff_forall_not_mem.2 fun v hv => ?_
      obtain ⟨_, _, -, -, -, hsome⟩ := wk.cells x _ v hv
      cases harray.symm.trans hsome
    · rfl
  rw [State.value?] at hvalue
  rw [State.complete, harray]
  change s.overlay J x = J x
  cases hJ : J x <;> simp [State.overlay, hJ, hvalue, hcells]

theorem cell?_complete_of_open (fits : J.Fits sig) {x : String} {a d i : Nat} {m : Memory}
    (hx : (x, .array a d) ∈ sig) (hm : s.arrays[x]? = some m) (hroot : m.root = x)
    (hi : i < 2 ^ a) (hopen : ∀ j : UInt64, j.toNat = i → s.cell? x j = none) :
    (s.complete J x).cell? i = (J x).cell? i := by
  obtain ⟨-, -, -, -, hbase⟩ := wk.arrays x m hm
  rw [hroot, hm, Option.some.injEq] at hbase
  have hcell : s.rootCell? x i = none := by
    unfold State.rootCell?
    split_ifs with hlt
    · have hnone := hopen (UInt64.ofNat i) (by simpa using hlt)
      rw [State.cell?, hm] at hnone
      change s.lookup m _ = _ at hnone
      rw [hbase] at hnone
      simpa [State.lookup, Memory.base, hroot] using hnone
    · rfl
  rw [wk.complete_root hm hroot, State.cell?_overlay (fits x _ hx) hi, hcell]
  simp

end State.WellKinded

/-! ## Verdicts -/

/-- An unsatisfiable verdict is right. -/
theorem not_satisfiable_of_solve_unsat {f : Formula} (sorted : f.WellSorted)
    (short : f.ExtensionsBelow (2 ^ 62)) {t : Term} (h : solve f = .ok (.unsat t)) :
    ¬ ∃ I : Interpretation, I.Fits f.signature ∧ I.Satisfies f := by
  rintro ⟨I, fits, hI⟩
  exact solve_decided sorted short h I fits hI

/-- The first cell of an array is to have contents. -/
def firstCellIs (contents : List String) : Formula :=
  .declareArray ⟨"a"⟩ ⟨8⟩ ⟨8⟩ :: contents.map fun digits => .assert (.app .eq []
    [.app .select [] [.symbol ⟨"a"⟩, .hex "00"], .hex digits])

theorem signature_firstCellIs (contents : List String) :
    (firstCellIs contents).signature = [("a", .array 8 8)] := by
  simp [firstCellIs, Formula.signature, Command.declared?, List.filterMap_eq_nil_iff]

theorem wellSorted_firstCellIs {contents : List String}
    (h : ∀ digits ∈ contents, digits.length = 2) : (firstCellIs contents).WellSorted := by
  refine ⟨by simp [signature_firstCellIs], fun t ht => ?_⟩
  simp only [firstCellIs, List.mem_cons, reduceCtorEq, List.mem_map, Command.assert.injEq,
    false_or] at ht
  obtain ⟨digits, hd, rfl⟩ := ht
  have ha : Term.HasKind (firstCellIs contents).signature (.symbol ⟨"a"⟩) (.array 8 8) := by
    simp [Term.HasKind, signature_firstCellIs]
  have hcontent : Term.HasKind (firstCellIs contents).signature (.hex digits) (.bits 8) := by
    simp [Term.HasKind, h digits hd]
  have hcell : Term.HasKind (firstCellIs contents).signature
      (.app .select [] [.symbol ⟨"a"⟩, .hex "00"]) (.bits 8) :=
    ⟨[.array 8 8, .bits 8], Term.haveKinds_pair.2 ⟨ha, rfl⟩, .select⟩
  exact ⟨[.bits 8, .bits 8], Term.haveKinds_pair.2 ⟨hcell, hcontent⟩,
    .equality (k := .bits 8) (by simp) (by simp)⟩

theorem extensionsBelow_firstCellIs (contents : List String) :
    (firstCellIs contents).ExtensionsBelow (2 ^ 62) := by
  intro t ht
  simp only [firstCellIs, List.mem_cons, reduceCtorEq, List.mem_map, Command.assert.injEq,
    false_or] at ht
  obtain ⟨digits, -, rfl⟩ := ht
  simp [Term.ExtensionsBelow, Term.AllExtensionsBelow]

theorem not_satisfiable_two_contents : ¬ ∃ I : Interpretation,
    I.Fits (firstCellIs ["01", "02"]).signature ∧ I.Satisfies (firstCellIs ["01", "02"]) := by
  have h₀ : constant 16 "00" ("00".length * 4) = .ok (.bits 0 8) := rfl
  have h₁ : constant 16 "01" ("01".length * 4) = .ok (.bits 1 8) := rfl
  have h₂ : constant 16 "02" ("02".length * 4) = .ok (.bits 2 8) := rfl
  have hmask : 1 &&& mask 8 = 1 := rfl
  have hwidth : indexInt ⟨8⟩ = 8 := rfl
  refine not_satisfiable_of_solve_unsat (wellSorted_firstCellIs (by decide))
    (extensionsBelow_firstCellIs _) (t := .app .eq []
      [.app .select [] [.symbol ⟨"a"⟩, .hex "00"], .hex "02"]) ?_
  simp [solve, firstCellIs, declareAll, State.declare, assertedTerms, passes_eq, pass,
    Progress.settle, Progress.equate, Progress.add, Progress.judge, State.define, State.defineTerm,
    State.defineSelect, State.defineCell, State.add, State.eval, State.evalAll, State.symbol,
    State.applyOp, State.strict, State.lookup, Memory.isRoot, Value.known, Value.word, Value.ofWord,
    Value.equal, chainEqual, Tri.value, Tri.ofBool, h₀, h₁, h₂, hmask, hwidth, bind, Except.bind,
    pure, Except.pure]

/-- The model of a satisfiable verdict is right whatever it leaves open: an interpretation that
agrees with the model satisfies the formula, and any interpretation can be made to agree with the
model while the symbols without a value or memory, and the cells without a content, are kept. -/
theorem satisfies_of_solve_sat {f : Formula} (sorted : f.WellSorted)
    (short : f.ExtensionsBelow (2 ^ 62)) {m : State} (h : solve f = .ok (.sat m)) :
    (∀ I : Interpretation, I.Fits f.signature → m.Agrees I → I.Satisfies f) ∧
    ∀ J : Interpretation, J.Fits f.signature → ∃ I : Interpretation,
      I.Fits f.signature ∧ m.Agrees I ∧
      (∀ x, m.value? x = none → m.arrays[x]? = none → I x = J x) ∧
      ∀ x a d i memory, (x, .array a d) ∈ f.signature → m.arrays[x]? = some memory →
        memory.root = x → i < 2 ^ a → (∀ j : UInt64, j.toNat = i → m.cell? x j = none) →
        (I x).cell? i = (J x).cell? i := by
  obtain ⟨wk, hmodels⟩ := solve_decided sorted short h
  refine ⟨fun I fits => (hmodels I fits).1, fun J fits => ?_⟩
  refine ⟨m.complete J, wk.complete_fits fits, wk.complete_agrees fits, ?_, ?_⟩
  · exact fun x => wk.complete_eq_of_open
  · exact fun x a d i memory hx hm hroot => wk.cell?_complete_of_open fits hx hm hroot

theorem satisfies_one_content : ∃ m : State, solve (firstCellIs ["01"]) = .ok (.sat m) ∧
    ∀ I : Interpretation, I.Fits (firstCellIs ["01"]).signature → m.Agrees I →
      I.Satisfies (firstCellIs ["01"]) := by
  have h₀ : constant 16 "00" ("00".length * 4) = .ok (.bits 0 8) := rfl
  have h₁ : constant 16 "01" ("01".length * 4) = .ok (.bits 1 8) := rfl
  have hwidth : indexInt ⟨8⟩ = 8 := rfl
  have hsolve : ∃ m : State, solve (firstCellIs ["01"]) = .ok (.sat m) := by
    simp [solve, firstCellIs, declareAll, State.declare, assertedTerms, passes_eq, pass,
      Progress.settle, Progress.equate, Progress.add, State.define, State.defineTerm,
      State.defineSelect, State.defineCell, State.add, State.eval, Value.known, Value.word,
      h₀, h₁, hwidth, bind, Except.bind, pure, Except.pure]
    simp [passes]
  obtain ⟨m, hm⟩ := hsolve
  exact ⟨m, hm, (satisfies_of_solve_sat (wellSorted_firstCellIs (by decide))
    (extensionsBelow_firstCellIs _) hm).1⟩

end CycleCheck.Propagation
