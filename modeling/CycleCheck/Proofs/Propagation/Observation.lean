import CycleCheck.Proofs.Propagation.Forward

/-!
Observations. An assertion may look at words and at single cells of arrays. Two states that agree on
what it looks at settle it in the same way, even if one knows an array as the stores on another one
and the other knows it cell by cell.
-/

namespace CycleCheck

/-- Words, and arrays with addresses of some width. -/
structure View where
  words : String → Prop
  arrays : String → Prop
  bits : Nat
  positive : 0 < bits
  narrow : bits ≤ 64

/-- The words and the arrays of a view are declared. -/
structure View.Declared (V : View) (sig : Signature) : Prop where
  words : ∀ x, V.words x → ∃ w, (x, .bits w) ∈ sig
  arrays : ∀ x, V.arrays x → ∃ d, (x, .array V.bits d) ∈ sig

/-- A term over constants, words of a view and cells of its arrays. -/
inductive Term.Observes (V : View) : Term → Prop where
  | bool (b : Bool) : Observes V (.bool b)
  | binary (digits : String) : Observes V (.binary digits)
  | hex (digits : String) : Observes V (.hex digits)
  | word {x : Symbol} (seen : V.words x.name) : Observes V (.symbol x)
  | cell {x : Symbol} {i : Nat} (seen : V.arrays x.name) (inRange : i < 2 ^ V.bits) :
      Observes V (.select (.symbol x) (.word V.bits i))
  | app {op : Op} {indices : List Numeral} {args : List Term} (other : op ≠ .select)
      (each : ∀ t ∈ args, Observes V t) : Observes V (.app op indices args)

theorem Term.Observes.of_app {V : View} {op : Op} {indices : List Numeral} {args : List Term}
    (h : (Term.app op indices args).Observes V) (hop : op ≠ .select) :
    ∀ t ∈ args, t.Observes V := by
  cases h with
  | cell => exact absurd rfl hop
  | app _ each => exact each

/-- A comparison with a constant. -/
theorem Term.Observes.eq_word {V : View} {t : Term} (h : t.Observes V) (w n : Nat) :
    (Term.eq t (.word w n)).Observes V := by
  have hword : (Term.word w n).Observes V := by
    unfold Term.word
    split_ifs
    · exact .hex _
    · exact .binary _
  exact .app (by decide) (by simpa using ⟨h, hword⟩)

namespace Propagation

/-! ## States that agree -/

/-- Both states know all cells of an array, and know the same. -/
def State.BothKnow (s s' : State) (bits : Nat) (x : String) : Prop :=
  ∃ m m', s.arrays[x]? = some m ∧ s'.arrays[x]? = some m' ∧ m.dataWidth = m'.dataWidth ∧
    ∀ i : UInt64, i.toNat < 2 ^ bits → (s.lookup m i).isSome ∧ s.lookup m i = s'.lookup m' i

/-- In both states an array is its own root, if it is known at all, with the same cells. -/
structure State.BothOwn (s s' : State) (x : String) : Prop where
  same : s'.arrays[x]? = s.arrays[x]?
  own : ∀ m, s.arrays[x]? = some m → m.root = x ∧ m.stores = []
  cells : ∀ i : UInt64, s'.cells[(x, i)]? = s.cells[(x, i)]?
  empty : s.arrays[x]? = none → ∀ i : UInt64, s.cells[(x, i)]? = none

/-- Two states that agree on all words and on the cells of the arrays of a view. -/
structure State.Resembles (V : View) (s s' : State) : Prop where
  sorts : ∀ x : String, V.words x ∨ V.arrays x → s'.sorts[x]? = s.sorts[x]?
  words : ∀ x : String, V.words x → ∀ a d, s.sorts[x]? ≠ some (.array a d)
  arrays : ∀ x : String, V.arrays x → ∀ w, s.sorts[x]? ≠ some (.bits w)
  values : ∀ x : String, s'.values[x]? = s.values[x]?
  memories : ∀ x, V.arrays x → s.BothKnow s' V.bits x ∨ s.BothOwn s' x

variable {V : View} {s s' : State} {a b t : Term} {x : String}

theorem State.lookup_of_root {m : Memory} (hroot : m.root = x) (hstores : m.stores = [])
    (s : State) (i : UInt64) : s.lookup m i = s.cells[(x, i)]? := by
  rw [State.lookup, hstores, hroot]
  rfl

/-- States that agree know the same cells. -/
theorem State.Resembles.cell?_eq (h : s.Resembles V s') (hx : V.arrays x) {i : UInt64}
    (hi : i.toNat < 2 ^ V.bits) : s'.cell? x i = s.cell? x i := by
  rcases h.memories x hx with ⟨m, m', hm, hm', -, hcells⟩ | hown
  · simp only [State.cell?, hm, hm']
    exact (hcells i hi).2.symm
  · simp only [State.cell?, hown.same]
    cases hm : s.arrays[x]? with
    | none => rfl
    | some m =>
      obtain ⟨hroot, hstores⟩ := hown.own m hm
      simp only [State.lookup_of_root hroot hstores]
      exact hown.cells i

/-! ## Evaluation -/

/-- The value of a constant does not depend on the state. -/
theorem State.exists_eval_index {w n : Nat} (pos : 0 < w) (narrow : w ≤ 64) (hn : n < 2 ^ w) :
    ∃ i : UInt64, i.toNat = n ∧
      ∀ s : State, s.eval (.word w n) = .ok (.bits i (Int64.ofNat w)) := by
  let start : Progress := { state := {} }
  have haware : start.Aware [] (fun _ => .truth true) fun _ _ => False :=
    ⟨(declareAll_spec (f := []) (by simp [Formula.signature]) rfl).1,
      (declareAll_spec (f := []) (by simp [Formula.signature]) rfl).2 _, rfl,
      fun _ _ h => h.elim, fun _ _ h => h.elim⟩
  obtain ⟨i, hi, -, hnumber⟩ := haware.eval_bits (fun _ _ h => by simp at h)
    (.word pos narrow hn)
  rw [Interpretation.denote_word, Meaning.number?_bits, BitVec.toNat_ofNat, Nat.mod_eq_of_lt hn]
    at hnumber
  refine ⟨i, (Option.some.inj hnumber).symm, fun s => ?_⟩
  rw [← hi, Term.word]
  split_ifs <;> rfl

theorem State.Resembles.symbol_eq (h : s.Resembles V s') (hx : V.words x) :
    s'.symbol x = s.symbol x := by
  have harray := h.words x hx
  simp only [State.symbol, h.sorts x (.inl hx), h.values x]
  cases hsort : s.sorts[x]? with
  | none => rfl
  | some τ =>
    cases τ with
    | bits w => rfl
    | array a d => exact absurd hsort (harray a d)

/-- The cell of an array at an index. -/
theorem State.eval_cell {i : UInt64} {w : Int64} {index : Term} {y : Symbol}
    (hindex : s.eval index = .ok (.bits i w)) (hsort : ∀ w, s.sorts[y.name]? ≠ some (.bits w)) :
    s.eval (.select (.symbol y) index) =
      if s.sorts[y.name]? = none then .error (.undeclared y.name)
      else match s.arrays[y.name]? with
        | none => .ok .unknown
        | some m => match s.lookup m i with
          | some v => .ok (.ofWord v m.dataWidth)
          | none => .ok .unknown := by
  have heval : s.eval (.select (.symbol y) index) =
    s.evalAll [.symbol y, index] >>= s.applyOp .select [] := rfl
  rw [heval, State.evalAll, State.eval, State.symbol]
  cases hy : s.sorts[y.name]? with
  | none => rfl
  | some τ =>
    cases τ with
    | bits w => exact absurd hy (hsort w)
    | array a d =>
      have hall : s.evalAll [index] = .ok [.bits i w] := State.evalAll_cons hindex rfl
      cases s.arrays[y.name]? <;> simp only [hall] <;> rfl

theorem State.Resembles.eval_cell_eq (h : s.Resembles V s') {y : Symbol} (hy : V.arrays y.name)
    {i : Nat} (hi : i < 2 ^ V.bits) :
    s'.eval (.select (.symbol y) (.word V.bits i)) =
      s.eval (.select (.symbol y) (.word V.bits i)) := by
  obtain ⟨j, hj, hindex⟩ := State.exists_eval_index V.positive V.narrow hi
  have hsorts := h.sorts y.name (.inr hy)
  have hsort := h.arrays y.name hy
  rw [State.eval_cell (hindex s) hsort, State.eval_cell (hindex s') (hsorts ▸ hsort), hsorts]
  congr 1
  rcases h.memories y.name hy with ⟨m, m', hm, hm', hwidth, hcells⟩ | hown
  · simp only [hm, hm', hwidth, (hcells j (hj ▸ hi)).2]
  · rw [hown.same]
    cases hm : s.arrays[y.name]? with
    | none => rfl
    | some m =>
      obtain ⟨hroot, hstores⟩ := hown.own m hm
      simp only [State.lookup_of_root hroot hstores, hown.cells]

theorem State.evalAll_congr {ts : List Term} (h : ∀ t ∈ ts, s'.eval t = s.eval t) :
    s'.evalAll ts = s.evalAll ts := by
  induction ts with
  | nil => rfl
  | cons t rest ih =>
    obtain ⟨ht, hrest⟩ := List.forall_mem_cons.1 h
    rw [State.evalAll, State.evalAll, ht, ih hrest]

/-- Only the choice of a cell looks at the state. -/
theorem State.applyOp_congr {op : Op} (hop : op ≠ .select) (indices : List Numeral)
    (vals : List Value) : s'.applyOp op indices vals = s.applyOp op indices vals := by
  have hstrict : s'.strict op indices vals = s.strict op indices vals := by
    unfold State.strict
    split <;> first | rfl | exact absurd rfl hop
  unfold State.applyOp
  cases op <;> first | rfl | simp only [hstrict]

theorem State.eval_app_congr {op : Op} {indices : List Numeral} {args : List Term}
    (hop : op ≠ .select) (h : ∀ t ∈ args, s'.eval t = s.eval t) :
    s'.eval (.app op indices args) = s.eval (.app op indices args) := by
  have happly : ∀ vals, s'.applyOp op indices vals = s.applyOp op indices vals :=
    State.applyOp_congr hop indices
  have hall := State.evalAll_congr h
  rw [State.eval.eq_def, State.eval.eq_def]
  split
  all_goals simp_all

/-- Terms of a view have the same values in states that agree. -/
theorem State.Resembles.eval_eq (h : s.Resembles V s') (ht : t.Observes V) :
    s'.eval t = s.eval t := by
  induction ht with
  | bool | binary | hex => rfl
  | word seen => exact h.symbol_eq seen
  | cell seen inRange => exact h.eval_cell_eq seen inRange
  | app other _ ih => exact State.eval_app_congr other ih

/-! ## Definitions -/

/-- What may be defined in states that agree: a word of the view, or a free cell of an array of the
view that is its own root. -/
inductive Definition.Observes (V : View) (s s' : State) : Definition → Prop where
  | value {x : String} (seen : V.words x) (v : UInt64) : Observes V s s' (.value x v)
  | cell {x : String} {root : Memory} {i : UInt64} (seen : V.arrays x) (own : s.BothOwn s' x)
      (hroot : root.root = x) (hstores : root.stores = []) (free : s.cells[(x, i)]? = none)
      (v : UInt64) : Observes V s s' (.cell x root i v)

theorem State.Resembles.defineSymbol (h : s.Resembles V s') (hx : V.words x)
    (ht : s'.eval t = s.eval t) : s'.defineSymbol x t = s.defineSymbol x t ∧
      ∀ d, s.defineSymbol x t = .ok (some d) → d.Observes V s s' := by
  have hcontains : s'.values.contains x = s.values.contains x := by
    rw [Std.HashMap.contains_eq_isSome_getElem?, Std.HashMap.contains_eq_isSome_getElem?, h.values]
  have harray := h.words x hx
  unfold State.defineSymbol
  rw [h.sorts x (.inl hx), hcontains, ht]
  cases hsort : s.sorts[x]? with
  | none => exact ⟨rfl, fun d hd => by cases hd⟩
  | some τ =>
    cases τ with
    | array a d => exact absurd hsort (harray a d)
    | bits w =>
      refine ⟨rfl, fun d hd => ?_⟩
      change (if s.values.contains x then _ else _) = _ at hd
      split_ifs at hd
      · cases hd
      · obtain ⟨v, -, hd⟩ := exists_ok_of_bind hd
        split at hd
        · cases hd
        · split_ifs at hd
          cases hd
          exact .value hx _
        · cases hd

/-- The root that a cell of an array is put into. -/
theorem State.BothOwn.getD (h : s.BothOwn s' x) (a d : Int64) :
    ((s.arrays[x]?).getD ⟨x, a, d, []⟩).root = x ∧
      ((s.arrays[x]?).getD ⟨x, a, d, []⟩).stores = [] := by
  cases hm : s.arrays[x]? with
  | none => exact ⟨rfl, rfl⟩
  | some m => exact h.own m hm

theorem State.BothOwn.any_lookup (h : s.BothOwn s' x) (i : UInt64) :
    (s.arrays[x]?).any (fun m => (s.lookup m i).isSome) = (s.cells[(x, i)]?).isSome := by
  cases hm : s.arrays[x]? with
  | none =>
    rw [h.empty hm i]
    rfl
  | some m =>
    obtain ⟨hroot, hstores⟩ := h.own m hm
    rw [Option.any_some, State.lookup_of_root hroot hstores]

theorem State.BothOwn.isRoot (h : s.BothOwn s' x) :
    (s.arrays[x]?).any (!·.isRoot) = false := by
  cases hm : s.arrays[x]? with
  | none => rfl
  | some m => simp [Memory.isRoot, (h.own m hm).2]

theorem State.BothOwn.symm (h : s.BothOwn s' x) : s'.BothOwn s x where
  same := h.same.symm
  own := fun m hm => h.own m (h.same ▸ hm)
  cells := fun i => (h.cells i).symm
  empty := fun hm i => (h.cells i).trans (h.empty (h.same ▸ hm) i)

/-- No cell is defined of an array all of whose cells are known. -/
theorem State.defineSelect_of_known {m : Memory} {index : Term} {i : UInt64} {w : Int64}
    {a d : Int64} (hsort : s.sorts[x]? = some (.array a d)) (hm : s.arrays[x]? = some m)
    (hindex : s.eval index = .ok (.bits i w)) (hcell : (s.lookup m i).isSome) :
    s.defineSelect x index t = .ok none := by
  simp only [State.defineSelect, hsort, hm, hindex]
  simp [Value.known, Value.word, hcell, bind, Except.bind, pure, Except.pure]

theorem State.BothOwn.defineSelect (h : s.BothOwn s' x) {index : Term} {i : UInt64} {w a d : Int64}
    (hsort : s.sorts[x]? = some (.array a d)) (hindex : s.eval index = .ok (.bits i w)) :
    s.defineSelect x index t =
      if (s.cells[(x, i)]?).isSome then .ok none else s.defineCell x a d i t := by
  simp only [State.defineSelect, hsort, h.isRoot, hindex]
  simp [Value.known, Value.word, h.any_lookup, bind, Except.bind, pure, Except.pure]

theorem State.Resembles.defineSelect (h : s.Resembles V s') (hx : V.arrays x) {i : Nat}
    (hi : i < 2 ^ V.bits) (ht : s'.eval t = s.eval t) :
    s'.defineSelect x (.word V.bits i) t = s.defineSelect x (.word V.bits i) t ∧
      ∀ d, s.defineSelect x (.word V.bits i) t = .ok (some d) → d.Observes V s s' := by
  obtain ⟨j, hj, hindex⟩ := State.exists_eval_index V.positive V.narrow hi
  have hsorts := h.sorts x (.inr hx)
  have hbits := h.arrays x hx
  cases hsort : s.sorts[x]? with
  | none =>
    have hnone : ∀ {s : State}, s.sorts[x]? = none →
        s.defineSelect x (.word V.bits i) t = .error (.undeclared x) := by
      intro s hs
      rw [State.defineSelect, hs]
    rw [hnone hsort, hnone (hsorts.trans hsort)]
    exact ⟨rfl, fun d hd => by cases hd⟩
  | some τ =>
    cases τ with
    | bits w => exact absurd hsort (hbits w)
    | array a d =>
      have hsort' := hsorts.trans hsort
      rcases h.memories x hx with ⟨m, m', hm, hm', -, hcells⟩ | hown
      · obtain ⟨hsome, heq⟩ := hcells j (hj ▸ hi)
        rw [State.defineSelect_of_known hsort hm (hindex s) hsome,
          State.defineSelect_of_known hsort' hm' (hindex s') (heq ▸ hsome)]
        exact ⟨rfl, fun d hd => by cases hd⟩
      · rw [hown.defineSelect hsort (hindex s), hown.symm.defineSelect hsort' (hindex s'),
          hown.cells j]
        unfold State.defineCell
        rw [ht, hown.same]
        refine ⟨rfl, fun e he => ?_⟩
        split_ifs at he with hfree
        · cases he
        · obtain ⟨v, -, he⟩ := exists_ok_of_bind he
          split at he
          · cases he
          · split_ifs at he
            cases he
            obtain ⟨hroot, hstores⟩ := hown.getD a d
            exact .cell hx hown hroot hstores (Option.not_isSome_iff_eq_none.1 hfree) _
          · cases he

/-- Equalities of terms of a view define the same in states that agree. -/
theorem State.Resembles.define (h : s.Resembles V s') (ha : a.Observes V) (hb : b.Observes V) :
    s'.define a b = s.define a b ∧
      ∀ d, s.define a b = .ok (some d) → d.Observes V s s' := by
  have hterm : ∀ {target other : Term}, target.Observes V → other.Observes V →
      s'.defineTerm target other = s.defineTerm target other ∧
        ∀ d, s.defineTerm target other = .ok (some d) → d.Observes V s s' := by
    intro target other ht ho
    have heval := h.eval_eq ho
    unfold State.defineTerm
    split
    · cases ht with
      | word seen => exact h.defineSymbol seen heval
    · cases ht with
      | cell seen inRange => exact h.defineSelect seen inRange heval
      | app hother => exact absurd rfl hother
    · exact ⟨rfl, fun d hd => by cases hd⟩
  obtain ⟨hleft, hleft'⟩ := hterm ha hb
  obtain ⟨hright, hright'⟩ := hterm hb ha
  unfold State.define
  rw [hleft, hright]
  refine ⟨rfl, fun d hd => ?_⟩
  obtain ⟨r, hr, hd⟩ := exists_ok_of_bind hd
  cases r with
  | some e =>
    cases hd
    exact hleft' _ hr
  | none => exact hright' d hd

/-- A cell that is known stays known when a free cell is defined. -/
theorem State.lookup_add_cell {root m : Memory} {i j : UInt64}
    (free : s.cells[(root.root, i)]? = none) (known : (s.lookup m j).isSome) (y : String)
    (v : UInt64) : (s.add (.cell y root i v)).lookup m j = s.lookup m j := by
  unfold State.lookup at known ⊢
  cases hfind : m.stores.find? (·.1 == j) with
  | some e => rfl
  | none =>
    rw [hfind] at known
    have hne : (root.root, i) ≠ (m.root, j) := fun heq => by
      rw [← heq, free] at known
      cases known
    simp only [State.add, Std.HashMap.getElem?_insert, beq_iff_eq, hne, if_false]

/-- Adding what may be defined keeps states in agreement. -/
theorem State.Resembles.add (h : s.Resembles V s') {d : Definition} (hd : d.Observes V s s') :
    (s.add d).Resembles V (s'.add d) := by
  cases hd with
  | @value x seen v =>
    refine ⟨h.sorts, h.words, h.arrays, fun y => ?_, fun y hy => ?_⟩
    · simp only [State.add, Std.HashMap.getElem?_insert, h.values]
    · rcases h.memories y hy with hknow | hown
      · exact .inl hknow
      · exact .inr ⟨hown.same, hown.own, hown.cells, hown.empty⟩
  | @cell x root i seen own hroot hstores free v =>
    refine ⟨h.sorts, h.words, h.arrays, h.values, fun y hy => ?_⟩
    by_cases hxy : x = y
    · subst hxy
      refine .inr ⟨by simp [State.add], fun m hm => ?_, fun j => ?_, fun hnone => ?_⟩
      · simp only [State.add, Std.HashMap.getElem?_insert_self, Option.some.injEq] at hm
        exact hm ▸ ⟨hroot, hstores⟩
      · simp only [State.add, Std.HashMap.getElem?_insert, own.cells]
      · simp [State.add] at hnone
    · have harrays : ∀ s : State, (s.add (.cell x root i v)).arrays[y]? = s.arrays[y]? := by
        intro s
        simp [State.add, Std.HashMap.getElem?_insert, hxy]
      have hcells : ∀ (s : State) (j : UInt64),
          (s.add (.cell x root i v)).cells[(y, j)]? = s.cells[(y, j)]? := fun s j => by
        simp [State.add, Std.HashMap.getElem?_insert, hroot, hxy]
      rcases h.memories y hy with ⟨m, m', hm, hm', hwidth, hknow⟩ | hown
      · refine .inl ⟨m, m', by rw [harrays, hm], by rw [harrays, hm'], hwidth, fun j hj => ?_⟩
        obtain ⟨hsome, heq⟩ := hknow j hj
        rw [State.lookup_add_cell (hroot ▸ free) hsome,
          State.lookup_add_cell (hroot ▸ (own.cells i).trans free) (heq ▸ hsome)]
        exact ⟨hsome, heq⟩
      · refine .inr ⟨by rw [harrays, harrays, hown.same], ?_, ?_, ?_⟩
        · rw [harrays]
          exact hown.own
        · intro j
          rw [hcells, hcells, hown.cells]
        · intro hnone j
          rw [harrays] at hnone
          rw [hcells, hown.empty hnone j]

/-! ## Settling -/

/-- What settling does to a progress: some terms are left, some definitions are made, and nothing
outside the words of the view gets a value. -/
structure Progress.Gains (V : View) (p q : Progress) (left : List Term) (count : Nat) : Prop where
  pending : q.pending.toList = p.pending.toList ++ left
  definitions : q.state.definitions = p.state.definitions + count
  sorts : q.state.sorts = p.state.sorts
  others : ∀ x : String, ¬ V.words x → q.state.values[x]? = p.state.values[x]?

theorem Progress.Gains.refl (V : View) (p : Progress) : p.Gains V p [] 0 :=
  ⟨(List.append_nil _).symm, rfl, rfl, fun _ _ => rfl⟩

theorem Progress.Gains.trans {p q r : Progress} {left left' : List Term} {count count' : Nat}
    (h : p.Gains V q left count) (h' : q.Gains V r left' count') :
    p.Gains V r (left ++ left') (count + count') where
  pending := by rw [h'.pending, h.pending, List.append_assoc]
  definitions := by rw [h'.definitions, h.definitions, Nat.add_assoc]
  sorts := h'.sorts.trans h.sorts
  others x hx := (h'.others x hx).trans (h.others x hx)

theorem Progress.gains_postpone (V : View) (p : Progress) (t : Term) :
    p.Gains V (p.postpone t) [t] 0 :=
  ⟨by simp [Progress.postpone], rfl, rfl, fun _ _ => rfl⟩

theorem Progress.gains_add {p : Progress} {d : Definition} (hd : d.Observes V s s') :
    p.Gains V (p.add d) [] 1 := by
  cases hd with
  | @value x seen v =>
    refine ⟨(List.append_nil _).symm, rfl, rfl, fun y hy => ?_⟩
    have hne : x ≠ y := fun heq => hy (heq ▸ seen)
    simp [Progress.add, State.add, Std.HashMap.getElem?_insert, hne]
  | cell => exact ⟨(List.append_nil _).symm, rfl, rfl, fun _ _ => rfl⟩

/-- The same outcome from two progresses: the same end, or states that agree again, with the same
terms left and as many definitions made. -/
inductive Progress.Alike (V : View) (p p' : Progress) :
    Except Halt Progress → Except Halt Progress → Prop where
  | error (e : Halt) : Alike V p p' (.error e) (.error e)
  | ok {q q' : Progress} {left : List Term} {count : Nat} (state : q.state.Resembles V q'.state)
      (observes : ∀ t ∈ left, t.Observes V) (gains : p.Gains V q left count)
      (gains' : p'.Gains V q' left count) : Alike V p p' (.ok q) (.ok q')

variable {p p' : Progress}

theorem Progress.Alike.self (h : p.state.Resembles V p'.state) : p.Alike V p' (.ok p) (.ok p') :=
  .ok h (by simp) (.refl V p) (.refl V p')

theorem Progress.Alike.postpone (h : p.state.Resembles V p'.state) (ht : t.Observes V) :
    p.Alike V p' (.ok (p.postpone t)) (.ok (p'.postpone t)) :=
  .ok h (by simpa using ht) (p.gains_postpone V t) (p'.gains_postpone V t)

theorem Progress.Alike.bind {r r' : Except Halt Progress} {f : Progress → Except Halt Progress}
    (h : p.Alike V p' r r')
    (hf : ∀ q q' : Progress, q.state.Resembles V q'.state → q.Alike V q' (f q) (f q')) :
    p.Alike V p' (r >>= f) (r' >>= f) := by
  cases h with
  | error e => exact .error e
  | @ok q q' left count state observes gains gains' =>
    change p.Alike V p' (f q) (f q')
    generalize hr : f q = r
    generalize hr' : f q' = r'
    have hq := hf q q' state
    rw [hr, hr'] at hq
    cases hq with
    | error e => exact .error e
    | ok state₂ observes₂ gains₂ gains₂' =>
      exact .ok state₂ (List.forall_mem_append.2 ⟨observes, observes₂⟩) (gains.trans gains₂)
        (gains'.trans gains₂')

theorem Progress.Alike.judge (h : p.state.Resembles V p'.state) (ht : t.Observes V) :
    p.Alike V p' (p.judge t) (p'.judge t) := by
  unfold Progress.judge
  rw [h.eval_eq ht]
  cases p.state.eval t with
  | error e => exact .error _
  | ok v =>
    cases v with
    | unknown => exact .postpone h ht
    | bool b =>
      cases b with
      | true => exact .self h
      | false => exact .error _
    | bits | array => exact .error _

theorem Progress.Alike.equate (h : p.state.Resembles V p'.state) {indices : List Numeral}
    (ht : (Term.app .eq indices [a, b]).Observes V) :
    p.Alike V p' (p.equate (.app .eq indices [a, b]) a b)
      (p'.equate (.app .eq indices [a, b]) a b) := by
  have hargs := ht.of_app (by simp)
  obtain ⟨hsame, hdefines⟩ := h.define (hargs a (by simp)) (hargs b (by simp))
  unfold Progress.equate
  rw [hsame]
  cases hd : p.state.define a b with
  | error e => exact .error _
  | ok r =>
    cases r with
    | none => exact .judge h ht
    | some d =>
      have hobserves := hdefines d hd
      exact .ok (h.add hobserves) (by simp) (Progress.gains_add hobserves)
        (Progress.gains_add hobserves)

/-- Progresses whose states agree settle a term of the view, and terms of the view, alike. -/
theorem Progress.alike_settle_and_settleAll :
    (∀ (p : Progress) (t : Term), ∀ p' : Progress, p.state.Resembles V p'.state → t.Observes V →
      p.Alike V p' (p.settle t) (p'.settle t)) ∧
    ∀ (p : Progress) (ts : List Term), ∀ p' : Progress, p.state.Resembles V p'.state →
      (∀ t ∈ ts, t.Observes V) → p.Alike V p' (p.settleAll ts) (p'.settleAll ts) := by
  refine Progress.settle.mutual_induct
    (fun p t => ∀ p' : Progress, p.state.Resembles V p'.state → t.Observes V →
      p.Alike V p' (p.settle t) (p'.settle t))
    (fun p ts => ∀ p' : Progress, p.state.Resembles V p'.state → (∀ t ∈ ts, t.Observes V) →
      p.Alike V p' (p.settleAll ts) (p'.settleAll ts))
    ?and ?failed ?waiting ?vacuous ?discharged ?eq ?other ?nil ?cons
  case and =>
    intro p indices args ih p' h ht
    rw [Progress.settle, Progress.settle]
    exact ih p' h (ht.of_app (by simp))
  case failed =>
    intro p indices a c e he p' h ht
    have heval := h.eval_eq (ht.of_app (by simp) a (by simp))
    rw [Progress.settle, Progress.settle, heval, he]
    exact .error _
  case waiting =>
    intro p indices a c v hv hk p' h ht
    have heval := h.eval_eq (ht.of_app (by simp) a (by simp))
    simp only [Progress.settle, heval, hv, hk, if_true]
    exact .postpone h ht
  case vacuous =>
    intro p indices a c v hv hk hf p' h ht
    have heval := h.eval_eq (ht.of_app (by simp) a (by simp))
    simp only [Progress.settle, heval, hv, hk, hf, if_true]
    exact .self h
  case discharged =>
    intro p indices a c v hv hk hf ih p' h ht
    have heval := h.eval_eq (ht.of_app (by simp) a (by simp))
    simp only [Progress.settle, heval, hv, hk, hf]
    exact ih p' h (ht.of_app (by simp) c (by simp))
  case eq =>
    intro p indices a b p' h ht
    rw [Progress.settle, Progress.settle]
    exact .equate h ht
  case other =>
    intro p t h₁ h₂ h₃ p' h ht
    rw [Progress.settle.eq_4 p t h₁ h₂ h₃, Progress.settle.eq_4 p' t h₁ h₂ h₃]
    exact .judge h ht
  case nil =>
    intro p p' h _
    rw [Progress.settleAll, Progress.settleAll]
    exact .self h
  case cons =>
    intro p t rest iht ihs p' h hts
    obtain ⟨ht, hrest⟩ := List.forall_mem_cons.1 hts
    rw [Progress.settleAll, Progress.settleAll]
    exact (iht p' h ht).bind fun q q' hq => ihs q q' hq hrest

end Propagation

end CycleCheck
