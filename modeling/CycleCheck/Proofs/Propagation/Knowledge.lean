import CycleCheck.Proofs.Propagation.Word
import CycleCheck.Proofs.Term.Meaning
import CycleCheck.Propagation.Solve
import Mathlib.Data.List.Forall2

/-!
What propagation knows. A value says something about the meaning of the term it was found for, and
a state says something about the meanings of symbols; an unknown value says nothing. Apart from
that, values and states are well sorted: words fit their widths, and a memory has the widths of
its root.
-/

namespace CycleCheck

namespace Meaning

/-- The number that a word stands for. -/
def number? : Meaning → Option Nat
  | .bits _ v => some v.toNat
  | _ => none

/-- The number in a cell of an array. -/
def cell? (m : Meaning) (index : Nat) : Option Nat :=
  match m with
  | .array a _ cells => some (cells (.ofNat a index)).toNat
  | _ => none

/-- An array with a number put into a cell. -/
def put (m : Meaning) (index value : Nat) : Meaning :=
  match m with
  | .array a d cells => .array a d (Function.update cells (.ofNat a index) (.ofNat d value))
  | m => m

@[simp] theorem number?_bits (w : Nat) (v : BitVec w) : (bits w v).number? = some v.toNat := rfl

theorem eq_of_number?_eq {m n : Meaning} (hk : m.kind = n.kind) {v : Nat}
    (hm : m.number? = some v) (hn : n.number? = some v) : m = n := by
  cases m with
  | bits w a =>
    obtain ⟨b, rfl⟩ := exists_bits_of_kind hk.symm
    simp only [number?_bits, Option.some.injEq] at hm hn
    rw [BitVec.eq_of_toNat_eq (hm.trans hn.symm)]
  | _ => cases hm

theorem kind_put (m : Meaning) (index value : Nat) : (m.put index value).kind = m.kind := by
  cases m <;> rfl

theorem store_eq_put {m : Meaning} {a d : Nat} (h : m.kind = .array a d) (i : BitVec a)
    (v : BitVec d) : m.store (.bits a i) (.bits d v) = m.put i.toNat v.toNat := by
  obtain ⟨cells, rfl⟩ := exists_array_of_kind h
  simp [store, put]

theorem number?_select {m : Meaning} {a d : Nat} (h : m.kind = .array a d) (i : BitVec a) :
    (m.select (.bits a i)).number? = m.cell? i.toNat := by
  obtain ⟨cells, rfl⟩ := exists_array_of_kind h
  simp [select, cell?]

theorem cell?_put {m : Meaning} {a d : Nat} (h : m.kind = .array a d) {i j v : Nat}
    (hi : i < 2 ^ a) (hj : j < 2 ^ a) (hv : v < 2 ^ d) :
    (m.put i v).cell? j = if i = j then some v else m.cell? j := by
  obtain ⟨cells, rfl⟩ := exists_array_of_kind h
  have hij : BitVec.ofNat a j = BitVec.ofNat a i ↔ i = j := by
    rw [← BitVec.toNat_inj, BitVec.toNat_ofNat, BitVec.toNat_ofNat, Nat.mod_eq_of_lt hi,
      Nat.mod_eq_of_lt hj]
    exact eq_comm
  simp only [put, cell?, Function.update_apply, hij]
  split_ifs
  · rw [BitVec.toNat_ofNat, Nat.mod_eq_of_lt hv]
  · rfl

end Meaning

namespace Propagation

/-! ## Sorts of values and states -/

/-- A 64-bit word holds a word of `n` bits. -/
def WordFits (v : UInt64) (n : Nat) : Prop := n ≤ 64 ∧ v.toNat < 2 ^ n

/-- A memory has the sort of its root, and its stores fit that sort. -/
structure Memory.Fits (sig : Signature) (m : Memory) (a d : Nat) : Prop where
  root : (m.root, .array a d) ∈ sig
  address : m.addressWidth = Int64.ofNat a
  data : m.dataWidth = Int64.ofNat d
  stores : ∀ p ∈ m.stores, WordFits p.1 a ∧ WordFits p.2 d

/-- A known value has a sort. -/
def Value.HasKind (sig : Signature) : Value → Kind → Prop
  | .unknown, _ => True
  | .bool _, k => k = .truth
  | .bits v w, k => ∃ n, k = .bits n ∧ w = Int64.ofNat n ∧ WordFits v n
  | .array m, k => ∃ a d, k = .array a d ∧ m.Fits sig a d

/-- The sort a symbol is declared with. -/
def TermSort.Of : TermSort → Kind → Prop
  | .bits w, k => ∃ n, k = .bits n ∧ w = Int64.ofNat n
  | .array a d, k => ∃ m n, k = .array m n ∧ a = Int64.ofNat m ∧ d = Int64.ofNat n

/-- The memory that a memory was built on. -/
def Memory.base (m : Memory) : Memory := { m with stores := [] }

/-- A state knows the declared symbols, and what it knows of them has their sorts. -/
structure State.WellKinded (s : State) (sig : Signature) : Prop where
  functional : ∀ x k k', (x, k) ∈ sig → (x, k') ∈ sig → k = k'
  declared : ∀ x k, (x, k) ∈ sig → ∃ τ, s.sorts[x]? = some τ ∧ τ.Of k
  values : ∀ x v, s.values[x]? = some v → ∃ n, (x, .bits n) ∈ sig ∧ WordFits v n
  arrays : ∀ x m, s.arrays[x]? = some m →
    ∃ a d, (x, .array a d) ∈ sig ∧ m.Fits sig a d ∧ s.arrays[m.root]? = some m.base
  cells : ∀ (r : String) (i v : UInt64), s.cells[(r, i)]? = some v →
    ∃ a d, (r, .array a d) ∈ sig ∧ WordFits i a ∧ WordFits v d ∧
      s.arrays[r]? = some ⟨r, Int64.ofNat a, Int64.ofNat d, []⟩

variable {sig : Signature} {s : State}

theorem Value.hasKind_ofWord {n : Nat} (h : n ≤ 64) (v : UInt64) :
    (Value.ofWord v (Int64.ofNat n)).HasKind sig (.bits n) := by
  refine ⟨n, rfl, rfl, h, ?_⟩
  rw [toNat_cut h]
  exact Nat.mod_lt _ (Nat.two_pow_pos n)

theorem Value.HasKind.exists_bool {v : Value} (h : v.HasKind sig .truth) (hk : v.known = true) :
    ∃ b, v = .bool b := by
  cases v with
  | unknown => cases hk
  | bool b => exact ⟨b, rfl⟩
  | bits x w =>
    obtain ⟨n, hn, -⟩ := h
    cases hn
  | array m =>
    obtain ⟨a, d, had, -⟩ := h
    cases had

theorem Value.HasKind.exists_bits {v : Value} {n : Nat} (h : v.HasKind sig (.bits n))
    (hk : v.known = true) : ∃ x, v = .bits x (Int64.ofNat n) ∧ WordFits x n := by
  cases v with
  | unknown => cases hk
  | bool b => cases h
  | bits x w =>
    obtain ⟨n', hn, rfl, hfit⟩ := h
    cases hn
    exact ⟨x, rfl, hfit⟩
  | array m =>
    obtain ⟨a, d, had, -⟩ := h
    cases had

theorem Value.HasKind.exists_array {v : Value} {a d : Nat} (h : v.HasKind sig (.array a d))
    (hk : v.known = true) : ∃ m, v = .array m ∧ m.Fits sig a d := by
  cases v with
  | unknown => cases hk
  | bool b => cases h
  | bits x w =>
    obtain ⟨n, hn, -⟩ := h
    cases hn
  | array m =>
    obtain ⟨a', d', had, hfit⟩ := h
    cases had
    exact ⟨m, rfl, hfit⟩

theorem Tri.hasKind_value (r : Tri) : r.value.HasKind sig .truth := by
  cases r
  · trivial
  · rfl
  · rfl

theorem Memory.Fits.store {m : Memory} {a d : Nat} (h : m.Fits sig a d) {i v : UInt64}
    (hi : WordFits i a) (hv : WordFits v d) : (m.store i v).Fits sig a d where
  root := h.root
  address := h.address
  data := h.data
  stores := by
    intro p hp
    rcases List.mem_cons.1 hp with rfl | hp
    · exact ⟨hi, hv⟩
    · exact h.stores p hp

/-- A cell that is found fits the data width. -/
theorem State.WellKinded.wordFits_lookup (wk : s.WellKinded sig) {m : Memory} {a d : Nat}
    (h : m.Fits sig a d) {i v : UInt64} (hv : s.lookup m i = some v) : WordFits v d := by
  unfold State.lookup at hv
  split at hv
  · next p hp =>
    cases hv
    exact (h.stores _ (List.mem_of_find?_eq_some hp)).2
  · obtain ⟨a', d', hsig, -, hfit, -⟩ := wk.cells m.root i v hv
    cases wk.functional _ _ _ hsig h.root
    exact hfit

/-! ## What values and states say -/

/-- The array that a memory stands for: the stores done on its root. -/
def Memory.meaning (I : Interpretation) (m : Memory) : Meaning :=
  m.stores.foldr (fun p array => array.put p.1.toNat p.2.toNat) (I m.root)

/-- What a value says of a meaning. -/
def Value.Says (I : Interpretation) : Value → Meaning → Prop
  | .unknown, _ => True
  | .bool b, m => m = .truth b
  | .bits v _, m => m.number? = some v.toNat
  | .array memory, m => m = memory.meaning I

/-- An interpretation gives every symbol that has a value in a state that value, every known cell
of a root its content, and every array that has a memory the stores of that memory on its root. -/
structure State.Agrees (s : State) (I : Interpretation) : Prop where
  values : ∀ x v, s.value? x = some v → (I x).number? = some v.toNat
  arrays : ∀ x m, s.arrays[x]? = some m → I x = m.meaning I
  cells : ∀ (r : String) (i v : UInt64), s.cells[(r, i)]? = some v →
    (I r).cell? i.toNat = some v.toNat

variable {I : Interpretation}

theorem Memory.kind_meaning (m : Memory) : (m.meaning I).kind = (I m.root).kind := by
  unfold Memory.meaning
  induction m.stores with
  | nil => rfl
  | cons p rest ih => rw [List.foldr_cons, Meaning.kind_put, ih]

theorem Memory.Fits.kind_meaning {m : Memory} {a d : Nat} (h : m.Fits sig a d)
    (fits : I.Fits sig) : (m.meaning I).kind = .array a d :=
  m.kind_meaning.trans (fits m.root _ h.root)

theorem Memory.meaning_store (m : Memory) (i v : UInt64) :
    (m.store i v).meaning I = (m.meaning I).put i.toNat v.toNat := rfl

/-- Same memories are the same array. -/
theorem Memory.meaning_eq_of_same {m n : Memory} (h : m.same n = true) :
    m.meaning I = n.meaning I := by
  simp only [Memory.same, Bool.and_eq_true, beq_iff_eq] at h
  rw [Memory.meaning, Memory.meaning, h.1, h.2]

/-- A cell that is found is the cell of the array: the latest store at the index counts. -/
theorem State.Agrees.cell?_of_lookup (ag : s.Agrees I) (fits : I.Fits sig) {m : Memory}
    {a d : Nat} (h : m.Fits sig a d) {i v : UInt64} (hi : WordFits i a)
    (hv : s.lookup m i = some v) : (m.meaning I).cell? i.toNat = some v.toNat := by
  obtain ⟨root, aw, dw, stores⟩ := m
  induction stores with
  | nil => exact ag.cells root i v hv
  | cons p rest ih =>
    have hrest : Memory.Fits sig ⟨root, aw, dw, rest⟩ a d :=
      ⟨h.root, h.address, h.data, fun q hq => h.stores q (List.mem_cons_of_mem p hq)⟩
    obtain ⟨hp₁, hp₂⟩ := h.stores p List.mem_cons_self
    have hput := Meaning.cell?_put (hrest.kind_meaning fits) hp₁.2 hi.2 hp₂.2
    change ((Memory.meaning I ⟨root, aw, dw, rest⟩).put p.1.toNat p.2.toNat).cell? i.toNat = _
    rw [hput]
    by_cases hpi : p.1 = i
    · simp only [State.lookup, List.find?_cons, hpi, beq_self_eq_true] at hv
      cases hv
      simp [hpi]
    · have hlookup : s.lookup ⟨root, aw, dw, rest⟩ i = some v := by
        simpa [State.lookup, List.find?_cons, hpi] using hv
      rw [if_neg (fun hn => hpi (UInt64.toNat_inj.1 hn))]
      exact ih hrest hlookup

/-! ## Values beside meanings -/

/-- A value stands for a meaning: it has its sort, and what it says of it is true. -/
def Value.Stands (sig : Signature) (I : Interpretation) (v : Value) (m : Meaning) : Prop :=
  v.HasKind sig m.kind ∧ v.Says I m

theorem Value.Stands.eq_bool {v : Value} {b : Bool} (h : v.Stands sig I (.truth b))
    (hk : v.known = true) : v = .bool b := by
  obtain ⟨c, rfl⟩ := h.1.exists_bool hk
  obtain rfl := Meaning.truth.inj h.2
  rfl

theorem Value.Stands.isTrue_eq {v : Value} {m : Meaning} (h : v.Stands sig I m)
    (hm : m.kind = .truth) (hk : v.known = true) : m.isTrue = v.truth := by
  rw [Meaning.eq_truth_of_kind hm] at h
  rw [h.eq_bool hk]
  rfl

theorem Value.Stands.exists_bits {v : Value} {w : Nat} {a : BitVec w}
    (h : v.Stands sig I (.bits w a)) (hk : v.known = true) :
    ∃ x, v = .bits x (Int64.ofNat w) ∧ w ≤ 64 ∧ x.toNat = a.toNat := by
  obtain ⟨x, rfl, hfit⟩ := h.1.exists_bits hk
  exact ⟨x, rfl, hfit.1, (Option.some.inj h.2).symm⟩

theorem Value.Stands.exists_array {v : Value} {a d : Nat} {cells : BitVec a → BitVec d}
    (h : v.Stands sig I (.array a d cells)) (hk : v.known = true) :
    ∃ mem, v = .array mem ∧ mem.Fits sig a d ∧ Meaning.array a d cells = mem.meaning I := by
  obtain ⟨mem, rfl, hfit⟩ := h.1.exists_array hk
  exact ⟨mem, rfl, hfit, h.2⟩

theorem Tri.ofBool_eq_yes {b : Bool} : Tri.ofBool b = .yes ↔ b = true := by
  cases b <;> simp [Tri.ofBool]

theorem Tri.ofBool_eq_no {b : Bool} : Tri.ofBool b = .no ↔ b = false := by
  cases b <;> simp [Tri.ofBool]

/-- Comparison of values: a definite answer is right. -/
theorem Value.equal_says {v w : Value} {m n : Meaning} (hv : v.Stands sig I m)
    (hw : w.Stands sig I n) (hk : m.kind = n.kind) :
    (v.equal w = .yes → m = n) ∧ (v.equal w = .no → m ≠ n) := by
  by_cases hknown : v.known = true ∧ w.known = true
  · obtain ⟨hkv, hkw⟩ := hknown
    cases m with
    | truth b =>
      obtain ⟨c, rfl⟩ : ∃ c, n = .truth c := ⟨_, Meaning.eq_truth_of_kind hk.symm⟩
      rw [hv.eq_bool hkv, hw.eq_bool hkw]
      simp [Value.equal, Value.known, Value.truth, Tri.ofBool_eq_yes, Tri.ofBool_eq_no]
    | bits k a =>
      obtain ⟨b, rfl⟩ := Meaning.exists_bits_of_kind hk.symm
      obtain ⟨x, rfl, -, hx⟩ := hv.exists_bits hkv
      obtain ⟨y, rfl, -, hy⟩ := hw.exists_bits hkw
      have hxy : x = y ↔ a = b := by rw [← UInt64.toNat_inj, ← BitVec.toNat_inj, hx, hy]
      simp [Value.equal, Value.known, Value.word, Tri.ofBool_eq_yes, Tri.ofBool_eq_no, hxy]
    | array a d f =>
      obtain ⟨g, rfl⟩ := Meaning.exists_array_of_kind hk.symm
      obtain ⟨p, rfl, -, hp⟩ := hv.exists_array hkv
      obtain ⟨q, rfl, -, hq⟩ := hw.exists_array hkw
      rw [hp, hq]
      by_cases hsame : p.same q = true
      · simp [Value.equal, Value.known, hsame, Memory.meaning_eq_of_same hsame]
      · simp [Value.equal, Value.known, hsame]
  · have hmaybe : v.equal w = .maybe := by
      unfold Value.equal
      rw [if_pos]
      by_cases hkv : v.known = true <;> simp_all
    simp [hmaybe]

end Propagation

end CycleCheck
