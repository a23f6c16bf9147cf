import CycleCheck.Proofs.Propagation.Kinds

/-!
Widths that may wrap. Whatever the zero extensions in a well sorted term, the width of its value is
the width of its sort modulo 2^64. A word need not fit such a width, but values of one sort have
the same one.
-/

namespace CycleCheck.Propagation

variable {sig : Signature} {s : State} {bound : Nat} {v : Value} {k : Kind} {n : Nat}

/-- A known value has the widths of a sort, taken modulo 2^64. -/
def Value.HasWidth : Value → Kind → Prop
  | .unknown, _ => True
  | .bool _, k => k = .truth
  | .bits _ w, k => ∃ n, k = .bits n ∧ w = Int64.ofNat n
  | .array m, k => ∃ a d, k = .array a d ∧ m.addressWidth = Int64.ofNat a ∧
      m.dataWidth = Int64.ofNat d

namespace Value

theorem HasKind.hasWidth (h : v.HasKind sig k) : v.HasWidth k := by
  cases v with
  | unknown => trivial
  | bool => exact h
  | bits =>
    obtain ⟨n, rfl, rfl, -⟩ := h
    exact ⟨n, rfl, rfl⟩
  | array =>
    obtain ⟨a, d, rfl, hfit⟩ := h
    exact ⟨a, d, rfl, hfit.address, hfit.data⟩

theorem hasWidth_ofWord (x : UInt64) (n : Nat) : (ofWord x (Int64.ofNat n)).HasWidth (.bits n) :=
  ⟨n, rfl, rfl⟩

theorem HasWidth.exists_bool (h : v.HasWidth .truth) (hk : v.known = true) : ∃ b, v = .bool b := by
  cases v with
  | unknown => cases hk
  | bool b => exact ⟨b, rfl⟩
  | bits =>
    obtain ⟨_, hn, -⟩ := h
    cases hn
  | array =>
    obtain ⟨_, _, had, -⟩ := h
    cases had

theorem HasWidth.exists_bits (h : v.HasWidth (.bits n)) (hk : v.known = true) :
    ∃ x, v = .bits x (Int64.ofNat n) := by
  cases v with
  | unknown => cases hk
  | bool => cases h
  | bits x w =>
    obtain ⟨_, hn, rfl⟩ := h
    cases hn
    exact ⟨x, rfl⟩
  | array =>
    obtain ⟨_, _, had, -⟩ := h
    cases had

theorem HasWidth.exists_array {a d : Nat} (h : v.HasWidth (.array a d)) (hk : v.known = true) :
    ∃ m, v = .array m ∧ m.addressWidth = Int64.ofNat a ∧ m.dataWidth = Int64.ofNat d := by
  cases v with
  | unknown => cases hk
  | bool => cases h
  | bits =>
    obtain ⟨_, hn, -⟩ := h
    cases hn
  | array m =>
    obtain ⟨_, _, had, hwidths⟩ := h
    cases had
    exact ⟨m, rfl, hwidths⟩

/-- Values of one sort that are found to be equal are the same. -/
theorem eq_of_equal {a b : Value} (ha : a.HasWidth k) (hb : b.HasWidth k)
    (h : a.equal b = .yes) : a = b := by
  have hknown : a.known = true ∧ b.known = true := by
    by_contra hopen
    unfold Value.equal at h
    rw [if_pos (by grind)] at h
    cases h
  cases k with
  | truth =>
    obtain ⟨x, rfl⟩ := ha.exists_bool hknown.1
    obtain ⟨y, rfl⟩ := hb.exists_bool hknown.2
    have hxy : Tri.ofBool (x == y) = .yes := h
    rw [beq_iff_eq.1 (Tri.ofBool_eq_yes.1 hxy)]
  | bits w =>
    obtain ⟨x, rfl⟩ := ha.exists_bits hknown.1
    obtain ⟨y, rfl⟩ := hb.exists_bits hknown.2
    have hxy : Tri.ofBool (x == y) = .yes := h
    rw [beq_iff_eq.1 (Tri.ofBool_eq_yes.1 hxy)]
  | array n d =>
    obtain ⟨m, rfl, haddress, hdata⟩ := ha.exists_array hknown.1
    obtain ⟨m', rfl, haddress', hdata'⟩ := hb.exists_array hknown.2
    have hsame : (if m.same m' then Tri.yes else .maybe) = .yes := h
    split_ifs at hsame with hsame'
    simp only [Memory.same, Bool.and_eq_true, beq_iff_eq] at hsame'
    obtain ⟨root, address, data, stores⟩ := m
    obtain ⟨root', address', data', stores'⟩ := m'
    obtain ⟨rfl, rfl⟩ := hsame'
    rw [show address = address' from haddress.trans haddress'.symm,
      show data = data' from hdata.trans hdata'.symm]

end Value

theorem State.widthwise_hasWidth :
    s.Widthwise bound (fun n w => w = Int64.ofNat n) Value.HasWidth where
  unknown _ := trivial
  bool _ := rfl
  ofWord h x := h ▸ Value.hasWidth_ofWord x _
  exists_bits h hknown := by
    obtain ⟨x, rfl⟩ := h.exists_bits hknown
    exact ⟨x, _, rfl, rfl⟩
  exists_array h hknown := by
    obtain ⟨m, rfl, -⟩ := h.exists_array hknown
    exact ⟨m, rfl⟩
  narrow _ := rfl
  slice _ _ := rfl
  concat ha hb _ := by rw [ha, hb, Int64.ofNat_add]
  extend h _ _ := by rw [h, Int64.ofNat_add]
  lookup h _ := by
    obtain ⟨m, hm, -, hdata⟩ := h.exists_array rfl
    cases hm
    exact hdata
  store hm _ _ := hm

theorem State.sortwise_hasWidth (wk : s.WellKinded sig) :
    s.Sortwise sig UInt64.size Value.HasWidth :=
  State.widthwise_hasWidth.sortwise fun hx h => (State.symbol_hasKind wk hx h).hasWidth

/-- The value of a well sorted term has the widths of the sort of the term, modulo 2^64. -/
theorem State.eval_hasWidth_and_evalAll (wk : s.WellKinded sig) :
    (∀ t : Term, ∀ k v, t.HasKind sig k → s.eval t = .ok v → v.HasWidth k) ∧
    ∀ ts : List Term, ∀ ks vs, Term.HaveKinds sig ts ks → s.evalAll ts = .ok vs →
      List.Forall₂ Value.HasWidth vs ks :=
  (State.sortwise_hasWidth wk).eval_and_evalAll_of_size

end CycleCheck.Propagation
