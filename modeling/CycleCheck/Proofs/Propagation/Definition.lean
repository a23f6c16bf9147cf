import CycleCheck.Proofs.Propagation.Evaluation

/-!
Definitions. An equality that is used as a definition adds one fact to the state. The fact is fresh,
so nothing known before is lost, and it says neither more nor less than the equality: an
interpretation agrees with the new state exactly if it agreed before and makes the equality true.
-/

namespace CycleCheck.Propagation

variable {sig : Signature} {s : State} {I : Interpretation}

/-- How an equality of a target with another term gives a fact. -/
inductive State.Defines (s : State) : Term → Term → Definition → Prop where
  | value {x : Symbol} {other : Term} {v : UInt64} {w : Int64}
      (sort : s.sorts[x.name]? = some (.bits w)) (fresh : s.values[x.name]? = none)
      (eval : s.eval other = .ok (.bits v w)) : s.Defines (.symbol x) other (.value x.name v)
  | array {x : Symbol} {other : Term} {m : Memory} {a d : Int64}
      (sort : s.sorts[x.name]? = some (.array a d)) (fresh : s.arrays[x.name]? = none)
      (eval : s.eval other = .ok (.array m)) : s.Defines (.symbol x) other (.array x.name m)
  | cell {x : Symbol} {indices : List Numeral} {index other : Term} {i : Value} {v : UInt64}
      {a d : Int64} {root : Memory} (sort : s.sorts[x.name]? = some (.array a d))
      (rooted : s.arrays[x.name]? = none ∧ root = ⟨x.name, a, d, []⟩ ∨
        s.arrays[x.name]? = some root ∧ root.stores = [] ∧ s.cells[(root.root, i.word)]? = none)
      (position : s.eval index = .ok i) (known : i.known = true)
      (eval : s.eval other = .ok (.bits v d)) :
      s.Defines (.app .select indices [.symbol x, index]) other (.cell x.name root i.word v)

theorem State.defines_of_defineSymbol {x : Symbol} {other : Term} {f : Definition}
    (h : s.defineSymbol x.name other = .ok (some f)) : s.Defines (.symbol x) other f := by
  unfold State.defineSymbol at h
  split at h
  · cases h
  · next a d hsort =>
    split_ifs at h with hfree
    · cases h
    · obtain ⟨v, hv, h⟩ := exists_ok_of_bind h
      split at h
      · cases h
      · cases h
        exact .array hsort (by simpa using hfree) hv
      · cases h
  · next w hsort =>
    split_ifs at h with hfree
    · cases h
    · obtain ⟨v, hv, h⟩ := exists_ok_of_bind h
      split at h
      · cases h
      · split_ifs at h with hw
        cases h
        subst hw
        exact .value hsort (by simpa using hfree) hv
      · cases h

theorem State.defines_of_defineSelect {x : Symbol} {indices : List Numeral} {index other : Term}
    {f : Definition} (h : s.defineSelect x.name index other = .ok (some f)) :
    s.Defines (.app .select indices [.symbol x, index]) other f := by
  unfold State.defineSelect at h
  split at h
  · cases h
  · cases h
  · next a d hsort =>
    dsimp only at h
    split_ifs at h with hroot
    · cases h
    · obtain ⟨i, hi, h⟩ := exists_ok_of_bind h
      split_ifs at h with hunknown hdone
      · cases h
      · cases h
      · unfold State.defineCell at h
        obtain ⟨v, hv, h⟩ := exists_ok_of_bind h
        split at h
        · cases h
        · split_ifs at h with hw
          cases h
          subst hw
          refine .cell hsort ?_ hi (by simpa using hunknown) hv
          cases hm : s.arrays[x.name]? with
          | none => exact .inl ⟨rfl, rfl⟩
          | some m =>
            simp only [hm, Option.any_some, Memory.isRoot, Bool.not_eq_true', Bool.not_eq_false,
              List.isEmpty_iff] at hroot hdone
            refine .inr ⟨rfl, hroot, ?_⟩
            simpa [State.lookup, hroot] using hdone
        · cases h

/-- What a definition does, once for all its forms. -/
theorem State.defines_of_define {a b : Term} {f : Definition}
    (h : s.define a b = .ok (some f)) : s.Defines a b f ∨ s.Defines b a f := by
  have hterm : ∀ target other : Term, s.defineTerm target other = .ok (some f) →
      s.Defines target other f := by
    intro target other h
    unfold State.defineTerm at h
    split at h
    · exact State.defines_of_defineSymbol h
    · exact State.defines_of_defineSelect h
    · cases h
  unfold State.define at h
  obtain ⟨r, hr, h⟩ := exists_ok_of_bind h
  cases r with
  | some d =>
    cases h
    exact .inl (hterm a b hr)
  | none => exact .inr (hterm b a h)

/-! ## Agreement with a larger state -/

/-- What holds of all entries of a map after an entry is put in that replaces no other. -/
theorem forall_getElem?_insert {α β : Type} [BEq α] [Hashable α] [LawfulBEq α] [LawfulHashable α]
    {m : Std.HashMap α β} {k : α} {v : β} (fresh : ∀ u, m[k]? = some u → u = v)
    {P : α → β → Prop} :
    (∀ y u, (m.insert k v)[y]? = some u → P y u) ↔ P k v ∧ ∀ y u, m[y]? = some u → P y u := by
  simp only [Std.HashMap.getElem?_insert]
  constructor
  · intro h
    refine ⟨h k v (by simp), fun y u hy => ?_⟩
    by_cases hky : k = y
    · subst hky
      obtain rfl := fresh u hy
      exact h k u (by simp)
    · exact h y u (by simpa [hky] using hy)
  · rintro ⟨hk, h⟩ y u hy
    split_ifs at hy with hky
    · obtain rfl := eq_of_beq hky
      cases hy
      exact hk
    · exact h y u hy

theorem State.agrees_iff : s.Agrees I ↔
    (∀ x v, s.values[x]? = some v → (I x).number? = some v.toNat) ∧
      (∀ x m, s.arrays[x]? = some m → I x = m.meaning I) ∧
        ∀ (k : String × UInt64) (v : UInt64), s.cells[k]? = some v →
          (I k.1).cell? k.2.toNat = some v.toNat :=
  ⟨fun h => ⟨h.values, h.arrays, fun k => h.cells k.1 k.2⟩,
    fun h => ⟨h.1, h.2.1, fun r i => h.2.2 (r, i)⟩⟩

theorem State.agrees_add_value {x : String} {v : UInt64} (fresh : s.values[x]? = none) :
    (s.add (.value x v)).Agrees I ↔ s.Agrees I ∧ (I x).number? = some v.toNat := by
  simp only [State.agrees_iff, State.add]
  rw [forall_getElem?_insert (by simp [fresh])]
  tauto

theorem State.agrees_add_array {x : String} {m : Memory} (fresh : s.arrays[x]? = none) :
    (s.add (.array x m)).Agrees I ↔ s.Agrees I ∧ I x = m.meaning I := by
  simp only [State.agrees_iff, State.add]
  rw [forall_getElem?_insert (by simp [fresh])]
  tauto

theorem State.agrees_add_cell {x : String} {root : Memory} {i v : UInt64}
    (known : ∀ m, s.arrays[x]? = some m → m = root) (fresh : s.cells[(root.root, i)]? = none) :
    (s.add (.cell x root i v)).Agrees I ↔
      s.Agrees I ∧ I x = root.meaning I ∧ (I root.root).cell? i.toNat = some v.toNat := by
  simp only [State.agrees_iff, State.add]
  rw [forall_getElem?_insert known, forall_getElem?_insert (by simp [fresh])]
  tauto

/-! ## Sorts in a larger state -/

theorem State.WellKinded.add_value (wk : s.WellKinded sig) {x : String} {v : UInt64} {n : Nat}
    (fresh : s.values[x]? = none) (hx : (x, .bits n) ∈ sig) (hv : WordFits v n) :
    (s.add (.value x v)).WellKinded sig where
  functional := wk.functional
  declared := wk.declared
  values := (forall_getElem?_insert (by simp [fresh])).2 ⟨⟨n, hx, hv⟩, wk.values⟩
  arrays := wk.arrays
  cells := wk.cells

/-- Putting in a memory that replaces no other keeps the memories that are there. -/
theorem getElem?_insert_of_known {arrays : Std.HashMap String Memory} {x y : String}
    {m n : Memory} (known : ∀ u, arrays[x]? = some u → u = m) (hy : arrays[y]? = some n) :
    (arrays.insert x m)[y]? = some n := by
  rw [Std.HashMap.getElem?_insert]
  split_ifs with hxy
  · rw [known n (by rw [beq_iff_eq.1 hxy, hy])]
  · exact hy

theorem State.WellKinded.add_array (wk : s.WellKinded sig) {x : String} {m : Memory} {a d : Nat}
    (fresh : s.arrays[x]? = none) (hx : (x, .array a d) ∈ sig) (hm : m.Fits sig a d)
    (hroot : s.arrays[m.root]? = some m.base) : (s.add (.array x m)).WellKinded sig where
  functional := wk.functional
  declared := wk.declared
  values := wk.values
  arrays := by
    refine (forall_getElem?_insert (by simp [fresh])).2 ⟨?_, fun y n hy => ?_⟩
    · exact ⟨a, d, hx, hm, getElem?_insert_of_known (by simp [fresh]) hroot⟩
    · obtain ⟨a', d', hy', hn, hbase⟩ := wk.arrays y n hy
      exact ⟨a', d', hy', hn, getElem?_insert_of_known (by simp [fresh]) hbase⟩
  cells := by
    intro r i v hv
    obtain ⟨a', d', hr, hi, hfit, hsome⟩ := wk.cells r i v hv
    exact ⟨a', d', hr, hi, hfit, getElem?_insert_of_known (by simp [fresh]) hsome⟩

theorem State.WellKinded.add_cell (wk : s.WellKinded sig) {x : String} {root : Memory} {a d : Nat}
    {i v : UInt64} (known : ∀ m, s.arrays[x]? = some m → m = root)
    (fresh : s.cells[(root.root, i)]? = none) (hx : (x, .array a d) ∈ sig)
    (hm : root.Fits sig a d) (hroot : root.stores = [])
    (hbase : root.root = x ∨ s.arrays[root.root]? = some root) (hi : WordFits i a)
    (hv : WordFits v d) : (s.add (.cell x root i v)).WellKinded sig where
  functional := wk.functional
  declared := wk.declared
  values := wk.values
  arrays := by
    have hself : root.base = root := by
      obtain ⟨r, aw, dw, stores⟩ := root
      cases hroot
      rfl
    refine (forall_getElem?_insert known).2 ⟨⟨a, d, hx, hm, ?_⟩, fun y n hy => ?_⟩
    · rcases hbase with hbase | hbase
      · simp [State.add, hbase, hself]
      · exact getElem?_insert_of_known known (by rw [hself, hbase])
    · obtain ⟨a', d', hy', hn, hbase⟩ := wk.arrays y n hy
      exact ⟨a', d', hy', hn, getElem?_insert_of_known known hbase⟩
  cells := by
    have hall := (forall_getElem?_insert (m := s.cells) (k := (root.root, i)) (v := v)
      (P := fun k u => ∃ a d, (k.1, .array a d) ∈ sig ∧ WordFits k.2 a ∧ WordFits u d ∧
        (s.arrays.insert x root)[k.1]? = some ⟨k.1, Int64.ofNat a, Int64.ofNat d, []⟩)
      (by simp [fresh])).2 ⟨?_, ?_⟩
    · exact fun r j u hu => hall (r, j) u hu
    · refine ⟨a, d, hm.root, hi, hv, ?_⟩
      rw [show (⟨root.root, Int64.ofNat a, Int64.ofNat d, []⟩ : Memory) = root by
        rw [← hm.address, ← hm.data, ← hroot]]
      rcases hbase with hbase | hbase
      · simp [hbase]
      · exact getElem?_insert_of_known known hbase
    · intro k u hu
      obtain ⟨a', d', hr, hj, hfit, hsome⟩ := wk.cells k.1 k.2 u hu
      exact ⟨a', d', hr, hj, hfit, getElem?_insert_of_known known hsome⟩

/-- The root that gets a cell: it has the sort of the array symbol, and the cell is free. -/
theorem State.WellKinded.root_of_defines (wk : s.WellKinded sig) {x : String} {a d : Nat}
    {root : Memory} {i : UInt64} (hx : (x, .array a d) ∈ sig)
    (rooted : s.arrays[x]? = none ∧ root = ⟨x, Int64.ofNat a, Int64.ofNat d, []⟩ ∨
      s.arrays[x]? = some root ∧ root.stores = [] ∧ s.cells[(root.root, i)]? = none) :
    root.Fits sig a d ∧ root.stores = [] ∧ s.cells[(root.root, i)]? = none ∧
      (∀ m, s.arrays[x]? = some m → m = root) ∧
        (root.root = x ∨ s.arrays[root.root]? = some root) := by
  rcases rooted with ⟨hnone, rfl⟩ | ⟨hsome, hstores, hfree⟩
  · refine ⟨⟨hx, rfl, rfl, by simp⟩, rfl, ?_, by simp [hnone], .inl rfl⟩
    cases hc : s.cells[(x, i)]? with
    | none => rfl
    | some v =>
      obtain ⟨_, _, -, -, -, hsome⟩ := wk.cells x i v hc
      cases hnone.symm.trans hsome
  · obtain ⟨a', d', hx', hfit, hbase⟩ := wk.arrays x root hsome
    cases wk.functional x _ _ hx hx'
    refine ⟨hfit, hstores, hfree, by simp [hsome], .inr ?_⟩
    obtain ⟨r, aw, dw, stores⟩ := root
    cases hstores
    exact hbase

/-- A definition by an equality of well sorted terms keeps the state well sorted. -/
theorem State.Defines.wellKinded {bound : Nat} (le : bound ≤ wrapBound) {target other : Term}
    {f : Definition} (h : s.Defines target other f) (wk : s.WellKinded sig) {k : Kind}
    (ht : target.HasKind sig k) (ho : other.HasKind sig k) (hst : target.ExtensionsBelow bound)
    (hso : other.ExtensionsBelow bound) : (s.add f).WellKinded sig := by
  have hkind := (State.eval_hasKind_and_evalAll wk le).1
  cases h with
  | value _ fresh eval =>
    obtain ⟨n, rfl, rfl, hfit⟩ := hkind other _ _ ho hso eval
    exact wk.add_value fresh ht hfit
  | array _ fresh eval =>
    obtain ⟨a, d, rfl, hfit⟩ := hkind other _ _ ho hso eval
    exact wk.add_array fresh ht hfit (State.rooted_of_eval wk ho eval)
  | @cell x _ index _ _ _ _ _ _ sort rooted position known eval =>
    obtain ⟨ks, hks, rank⟩ := ht
    obtain ⟨a, d, rfl, rfl⟩ := rank.of_select
    obtain ⟨hx, hki⟩ := Term.haveKinds_pair.1 hks
    obtain ⟨τ, hτ, hof⟩ := wk.declared x.name _ hx
    cases sort.symm.trans hτ
    obtain ⟨_, _, hkinds, rfl, rfl⟩ := hof
    cases hkinds
    obtain ⟨n, hn, -, hfit⟩ := hkind other _ _ ho hso eval
    cases hn
    obtain ⟨y, rfl, hfi⟩ := (hkind index _ _ hki hst.2.2.1 position).exists_bits known
    obtain ⟨hm, hstores, hfree, hknown, hbase⟩ := wk.root_of_defines hx rooted
    exact wk.add_cell hknown hfree hx hm hstores hbase hfi hfit

theorem State.define_wellKinded {bound : Nat} (le : bound ≤ wrapBound) {a b : Term}
    {f : Definition} (h : s.define a b = .ok (some f)) (wk : s.WellKinded sig) {k : Kind}
    (ha : a.HasKind sig k) (hb : b.HasKind sig k) (hsa : a.ExtensionsBelow bound)
    (hsb : b.ExtensionsBelow bound) : (s.add f).WellKinded sig := by
  rcases State.defines_of_define h with h | h
  · exact h.wellKinded le wk ha hb hsa hsb
  · exact h.wellKinded le wk hb ha hsb hsa

/-! ## What a definition says -/

theorem State.eval_hasKind (wk : s.WellKinded sig) {t : Term} {k : Kind} {v : Value}
    (hk : t.HasKind sig k) (short : t.ExtensionsBelow extensionBound) (h : s.eval t = .ok v) :
    v.HasKind sig k :=
  (State.eval_hasKind_and_evalAll wk extensionBound_le).1 t k v hk short h

theorem State.eval_stands (wk : s.WellKinded sig) (fits : I.Fits sig) (ag : s.Agrees I) {t : Term}
    {k : Kind} {v : Value} (hk : t.HasKind sig k) (short : t.ExtensionsBelow extensionBound)
    (h : s.eval t = .ok v) : v.Stands sig I (I.denote t) :=
  State.stands_of_says wk fits hk short h
    ((State.eval_says_and_evalAll wk fits ag).1 t k v hk short h)

/-- A definition keeps the state well sorted and says what its equality says. -/
theorem State.Defines.spec {target other : Term} {f : Definition} (h : s.Defines target other f)
    (wk : s.WellKinded sig) {k : Kind} (ht : target.HasKind sig k) (ho : other.HasKind sig k)
    (hst : target.ExtensionsBelow extensionBound) (hso : other.ExtensionsBelow extensionBound) :
    (s.add f).WellKinded sig ∧ ∀ I : Interpretation, I.Fits sig →
      ((s.add f).Agrees I ↔ s.Agrees I ∧ I.denote target = I.denote other) := by
  refine ⟨h.wellKinded extensionBound_le wk ht ho hst hso, fun I fits => ?_⟩
  cases h with
  | @value x _ v w sort fresh eval =>
    obtain ⟨n, rfl, rfl, -⟩ := State.eval_hasKind wk ho hso eval
    rw [State.agrees_add_value fresh]
    refine and_congr_right fun ag => ?_
    obtain ⟨-, hsaid⟩ := State.eval_stands wk fits ag ho hso eval
    have hkinds : (I x.name).kind = (I.denote other).kind :=
      (fits x.name _ ht).trans (I.kind_denote fits other _ ho).symm
    exact ⟨fun hx => Meaning.eq_of_number?_eq hkinds hx hsaid,
      fun hx => (congrArg Meaning.number? hx).trans hsaid⟩
  | @array x _ m a d sort fresh eval =>
    rw [State.agrees_add_array fresh]
    refine and_congr_right fun ag => ?_
    obtain ⟨-, hsaid⟩ := State.eval_stands wk fits ag ho hso eval
    change I x.name = m.meaning I ↔ I x.name = I.denote other
    rw [show I.denote other = m.meaning I from hsaid]
  | @cell x indices index _ i v a d root sort rooted position known eval =>
    obtain ⟨ks, hks, rank⟩ := ht
    obtain ⟨a', d', rfl, rfl⟩ := rank.of_select
    obtain ⟨hx, hki⟩ := Term.haveKinds_pair.1 hks
    obtain ⟨τ, hτ, hof⟩ := wk.declared x.name _ hx
    cases sort.symm.trans hτ
    obtain ⟨_, _, hkinds, rfl, rfl⟩ := hof
    cases hkinds
    obtain ⟨y, rfl, -⟩ := (State.eval_hasKind wk hki hst.2.2.1 position).exists_bits known
    obtain ⟨-, hstores, hfree, hknown, -⟩ := wk.root_of_defines hx rooted
    rw [State.agrees_add_cell hknown hfree]
    refine and_congr_right fun ag => ?_
    obtain ⟨-, hsaid⟩ := State.eval_stands wk fits ag ho hso eval
    obtain ⟨-, hpos⟩ := State.eval_stands wk fits ag hki hst.2.2.1 position
    have hroot : root.meaning I = I root.root := by rw [Memory.meaning, hstores, List.foldr_nil]
    have hsame : I x.name = root.meaning I := by
      rcases rooted with ⟨-, rfl⟩ | ⟨hsome, -⟩
      · exact hroot.symm
      · exact ag.arrays x.name root hsome
    obtain ⟨j, hj⟩ := Meaning.exists_bits_of_kind (I.kind_denote fits index _ hki)
    rw [hj] at hpos
    have hcell : ((I x.name).select (I.denote index)).number? = (I root.root).cell? y.toNat := by
      rw [hj, Meaning.number?_select (fits x.name _ hx), hsame, hroot, Option.some.inj hpos]
    have hkinds : ((I x.name).select (I.denote index)).kind = (I.denote other).kind := by
      obtain ⟨cells, hcells⟩ := Meaning.exists_array_of_kind (fits x.name _ hx)
      rw [I.kind_denote fits other _ ho, hcells, hj]
      rfl
    change _ ↔ (I x.name).select (I.denote index) = I.denote other
    constructor
    · rintro ⟨-, hv⟩
      exact Meaning.eq_of_number?_eq hkinds (hcell.trans hv) hsaid
    · intro heq
      refine ⟨hsame, ?_⟩
      rw [Value.word, ← hcell, heq]
      exact hsaid

/-- An equality that is used as a definition holds exactly where the new state is agreed with. -/
theorem State.define_spec {a b : Term} {f : Definition} (h : s.define a b = .ok (some f))
    (wk : s.WellKinded sig) {k : Kind} (ha : a.HasKind sig k) (hb : b.HasKind sig k)
    (hsa : a.ExtensionsBelow extensionBound) (hsb : b.ExtensionsBelow extensionBound) :
    (s.add f).WellKinded sig ∧ ∀ I : Interpretation, I.Fits sig →
      ((s.add f).Agrees I ↔ s.Agrees I ∧ I.denote a = I.denote b) := by
  rcases State.defines_of_define h with h | h
  · exact h.spec wk ha hb hsa hsb
  · obtain ⟨hwk, hag⟩ := h.spec wk hb ha hsb hsa
    exact ⟨hwk, fun I fits => (hag I fits).trans (and_congr_right fun _ => eq_comm)⟩

end CycleCheck.Propagation
