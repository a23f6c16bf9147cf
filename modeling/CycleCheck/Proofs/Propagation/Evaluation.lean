import CycleCheck.Proofs.Propagation.Kinds

/-!
What evaluation says. In every interpretation that agrees with a state, a known value of a well
sorted term is the value of the term: connectives and equality may answer before all their
arguments are known, and every other operator computes on 64-bit words what it means on words of
its width.
-/

namespace CycleCheck.Propagation

variable {sig : Signature} {s : State} {I : Interpretation}

/-- Related lists: an element of one is related to one of the other. -/
theorem exists_right_of_mem {α β : Type} {R : α → β → Prop} {as : List α} {bs : List β}
    (h : List.Forall₂ R as bs) {a : α} (ha : a ∈ as) : ∃ b ∈ bs, R a b := by
  induction h with
  | nil => cases ha
  | cons hab _ ih =>
    rcases List.mem_cons.1 ha with rfl | ha
    · exact ⟨_, List.mem_cons_self, hab⟩
    · obtain ⟨b, hb, hr⟩ := ih ha
      exact ⟨b, List.mem_cons_of_mem _ hb, hr⟩

theorem exists_left_of_mem {α β : Type} {R : α → β → Prop} {as : List α} {bs : List β}
    (h : List.Forall₂ R as bs) {b : β} (hb : b ∈ bs) : ∃ a ∈ as, R a b :=
  exists_right_of_mem h.flip hb

theorem conjunction_says {vals : List Value} {ms : List Meaning}
    (h : List.Forall₂ (Value.Stands sig I) vals ms) (hk : ∀ m ∈ ms, m.kind = .truth) :
    (conjunction vals).Says I (.truth (ms.all Meaning.isTrue)) := by
  unfold conjunction
  split_ifs with hfalse hall
  · obtain ⟨v, hv, hkv⟩ := List.any_eq_true.1 hfalse
    obtain ⟨m, hm, hs⟩ := exists_right_of_mem h hv
    simp only [Bool.and_eq_true, Bool.not_eq_true'] at hkv
    have hfalse : ms.all Meaning.isTrue = false := by
      rw [List.all_eq_false]
      exact ⟨m, hm, by rw [hs.isTrue_eq (hk m hm) hkv.1, hkv.2]; simp⟩
    rw [hfalse]
    rfl
  · have htrue : ms.all Meaning.isTrue = true := by
      rw [List.all_eq_true]
      intro m hm
      obtain ⟨v, hv, hs⟩ := exists_left_of_mem h hm
      have hkv := List.all_eq_true.1 hall v hv
      rw [hs.isTrue_eq (hk m hm) hkv, ← Bool.not_eq_false]
      intro hv'
      exact hfalse (List.any_eq_true.2 ⟨v, hv, by simp [hkv, hv']⟩)
    rw [htrue]
    rfl
  · trivial

theorem disjunction_says {vals : List Value} {ms : List Meaning}
    (h : List.Forall₂ (Value.Stands sig I) vals ms) (hk : ∀ m ∈ ms, m.kind = .truth) :
    (disjunction vals).Says I (.truth (ms.any Meaning.isTrue)) := by
  unfold disjunction
  split_ifs with htrue hall
  · obtain ⟨v, hv, hkv⟩ := List.any_eq_true.1 htrue
    obtain ⟨m, hm, hs⟩ := exists_right_of_mem h hv
    simp only [Bool.and_eq_true] at hkv
    have htrue : ms.any Meaning.isTrue = true := by
      rw [List.any_eq_true]
      exact ⟨m, hm, by rw [hs.isTrue_eq (hk m hm) hkv.1, hkv.2]⟩
    rw [htrue]
    rfl
  · have hfalse : ms.any Meaning.isTrue = false := by
      rw [List.any_eq_false]
      intro m hm
      obtain ⟨v, hv, hs⟩ := exists_left_of_mem h hm
      have hkv := List.all_eq_true.1 hall v hv
      rw [hs.isTrue_eq (hk m hm) hkv]
      intro hv'
      exact htrue (List.any_eq_true.2 ⟨v, hv, by simp [hkv, hv']⟩)
    rw [hfalse]
    rfl
  · trivial

/-- A three-valued answer whose definite cases are right. -/
theorem Tri.value_says {r : Tri} {b : Bool} (hyes : r = .yes → b = true)
    (hno : r = .no → b = false) : r.value.Says I (.truth b) := by
  cases r with
  | maybe => trivial
  | yes => exact congrArg Meaning.truth (hyes rfl)
  | no => exact congrArg Meaning.truth (hno rfl)

theorem chainEqual_says {vals : List Value} {ms : List Meaning}
    (h : List.Forall₂ (Value.Stands sig I) vals ms) {k : Kind} (hk : ∀ m ∈ ms, m.kind = k) :
    (chainEqual vals = .yes → ms.IsChain (· = ·)) ∧
      (chainEqual vals = .no → ¬ ms.IsChain (· = ·)) := by
  induction h with
  | nil => simp [chainEqual]
  | cons ha hrest ih =>
    cases hrest with
    | nil => simp [chainEqual]
    | cons hb hrest =>
      have heq := Value.equal_says ha hb (by rw [hk _ (by simp), hk _ (by simp)])
      have ih := ih (fun m hm => hk m (List.mem_cons_of_mem _ hm))
      rw [List.isChain_cons_cons, chainEqual]
      split <;> simp_all

theorem pairwiseDistinct_says {vals : List Value} {ms : List Meaning}
    (h : List.Forall₂ (Value.Stands sig I) vals ms) {k : Kind} (hk : ∀ m ∈ ms, m.kind = k) :
    (pairwiseDistinct vals = .yes → ms.Pairwise (· ≠ ·)) ∧
      (pairwiseDistinct vals = .no → ¬ ms.Pairwise (· ≠ ·)) := by
  induction h with
  | nil => simp [pairwiseDistinct]
  | @cons v m vals ms hv hrest ih =>
    have ih := ih (fun m hm => hk m (List.mem_cons_of_mem _ hm))
    have hkm : ∀ n ∈ ms, m.kind = n.kind := by
      intro n hn
      rw [hk m List.mem_cons_self, hk n (List.mem_cons_of_mem _ hn)]
    rw [List.pairwise_cons, pairwiseDistinct]
    by_cases hany : vals.any (fun b => v.equal b == .yes) = true
    · obtain ⟨u, hu, hyes⟩ := List.any_eq_true.1 hany
      obtain ⟨n, hn, hs⟩ := exists_right_of_mem hrest hu
      have hmn := (Value.equal_says hv hs (hkm n hn)).1 (by simpa using hyes)
      rw [if_pos hany]
      refine ⟨nofun, ?_⟩
      rintro - ⟨hne, -⟩
      exact hne n hn hmn
    · rw [if_neg hany]
      cases hd : pairwiseDistinct vals with
      | maybe => simp
      | no =>
        refine ⟨nofun, ?_⟩
        rintro - ⟨-, hrest'⟩
        exact ih.2 hd hrest'
      | yes =>
        by_cases hmaybe : vals.any (fun b => v.equal b == .maybe) = true
        · simp [hmaybe]
        · simp only [hmaybe]
          refine ⟨fun _ => ⟨fun n hn => ?_, ih.1 hd⟩, nofun⟩
          obtain ⟨u, hu, hs⟩ := exists_left_of_mem hrest hn
          -- neither equal nor undecided, so told apart
          have hyes : v.equal u ≠ .yes := fun he =>
            hany (List.any_eq_true.2 ⟨u, hu, by simp [he]⟩)
          have hunsure : v.equal u ≠ .maybe := fun he =>
            hmaybe (List.any_eq_true.2 ⟨u, hu, by simp [he]⟩)
          refine (Value.equal_says hv hs (hkm n hn)).2 ?_
          cases he : v.equal u <;> simp_all

theorem says_ofWord {n : Nat} {v : UInt64} {w : Int64} {a : BitVec n} (hw : w = Int64.ofNat n)
    (h : (v &&& mask (Int64.ofNat n)).toNat = a.toNat) : (Value.ofWord v w).Says I (.bits n a) := by
  subst hw
  exact congrArg some h.symm

theorem says_ofWord_zero {n : Nat} (h : n ≤ 64) :
    (Value.ofWord 0 (Int64.ofNat n)).Says I (.bits n 0#n) := by
  refine says_ofWord rfl ?_
  rw [toNat_cut h, BitVec.toNat_ofNat, UInt64.toNat_zero]

theorem truth_foldl_xor {vals : List Value} {ms : List Meaning}
    (h : List.Forall₂ (Value.Stands sig I) vals ms) (hk : ∀ m ∈ ms, m.kind = .truth)
    (hknown : ∀ u ∈ vals, u.known = true) (b : Bool) :
    vals.foldl (fun b v => b != v.truth) b = ms.foldl (fun b m => b != m.isTrue) b := by
  induction h generalizing b with
  | nil => rfl
  | cons hv _ ih =>
    rw [List.foldl_cons, List.foldl_cons, ih (fun m hm => hk m (List.mem_cons_of_mem _ hm))
      (fun u hu => hknown u (List.mem_cons_of_mem _ hu)),
      hv.isTrue_eq (hk _ List.mem_cons_self) (hknown _ List.mem_cons_self)]

theorem mem_kind_of_forall₂ {ms : List Meaning} {ks : List Kind} (h : Meaning.HaveKinds ms ks)
    {k : Kind} (hk : ∀ k' ∈ ks, k' = k) : ∀ m ∈ ms, m.kind = k := by
  induction h with
  | nil => simp
  | cons hm _ ih =>
    intro m hmem
    rcases List.mem_cons.1 hmem with rfl | hmem
    · exact hm.trans (hk _ List.mem_cons_self)
    · exact ih (fun k' hk' => hk k' (List.mem_cons_of_mem _ hk')) m hmem

/-- The operators on two words compute what they mean. -/
theorem State.strict_word_says {op : Op} {w : Nat}
    (which : op ∈ [Op.bvadd, .bvsub, .bvand, .bvor, .bvxor, .bvshl, .bvlshr]) {x y : UInt64}
    {a b : BitVec w} (hw : w ≤ 64) (hx : x.toNat = a.toNat) (hy : y.toNat = b.toNat) {v : Value}
    (h : s.strict op [] [.bits x (Int64.ofNat w), .bits y (Int64.ofNat w)] = .ok v) :
    v.Says I (op.meaning [] [.bits w a, .bits w b]) := by
  simp only [List.mem_cons, List.not_mem_nil, or_false] at which
  rcases which with rfl | rfl | rfl | rfl | rfl | rfl | rfl <;>
    simp only [Op.meaning, Meaning.words, BitVec.setWidth_eq]
  · cases h
    exact says_ofWord rfl (toNat_add_cut hw hx hy)
  · cases h
    exact says_ofWord rfl (toNat_sub_cut hw hx hy)
  · cases h
    exact says_ofWord rfl (toNat_and_cut hw hx hy)
  · cases h
    exact says_ofWord rfl (toNat_or_cut hw hx hy)
  · cases h
    exact says_ofWord rfl (toNat_xor_cut hw hx hy)
  · simp only [State.strict_bvshl, ge_width_iff hw hy] at h
    split_ifs at h with hge <;> cases h
    · rw [shl_eq_zero hge]
      exact says_ofWord_zero hw
    · exact says_ofWord rfl (toNat_shl_cut hw hx hy (by omega))
  · simp only [State.strict_bvlshr, ge_width_iff hw hy] at h
    split_ifs at h with hge <;> cases h
    · rw [lshr_eq_zero hge]
      exact says_ofWord_zero hw
    · exact says_ofWord rfl (toNat_lshr_cut hw hx hy (by omega))

/-- The comparisons of two words compute what they mean. -/
theorem State.strict_comparison_says {op : Op} {w : Nat}
    (which : op ∈ [Op.bvult, .bvule, .bvugt, .bvuge]) {x y : UInt64} {a b : BitVec w}
    {wx wy : Int64} (hx : x.toNat = a.toNat) (hy : y.toNat = b.toNat) {v : Value}
    (h : s.strict op [] [.bits x wx, .bits y wy] = .ok v) :
    v.Says I (op.meaning [] [.bits w a, .bits w b]) := by
  simp only [List.mem_cons, List.not_mem_nil, or_false] at which
  rcases which with rfl | rfl | rfl | rfl <;> cases h <;>
    simp [Op.meaning, Meaning.compare, Value.Says, Value.word, BitVec.ult, BitVec.ule,
      UInt64.lt_iff_toNat_lt, UInt64.le_iff_toNat_le, hx, hy]

/-- The operators that need all their arguments compute what they mean. -/
theorem State.strict_says (wk : s.WellKinded sig) (fits : I.Fits sig) (ag : s.Agrees I) {op : Op}
    {indices : List Numeral} {ks : List Kind} {k : Kind} (rank : Rank op indices ks k)
    {ms : List Meaning} (hms : Meaning.HaveKinds ms ks) {vals : List Value} {v : Value}
    (hvals : List.Forall₂ (Value.Stands sig I) vals ms) (hknown : ∀ u ∈ vals, u.known = true)
    (short : op = .zeroExtend → ∀ n ∈ indices, n.value.toNat < extensionBound)
    (h : s.strict op indices vals = .ok v) : v.Says I (op.meaning indices ms) := by
  cases rank with
  | connective which all =>
    simp only [List.mem_cons, List.not_mem_nil, or_false] at which
    rcases which with rfl | rfl | rfl <;> simp only [State.strict] at h <;> cases h
    rw [Op.meaning, truth_foldl_xor hvals (mem_kind_of_forall₂ hms all) hknown]
    rfl
  | equality which _ =>
    simp only [List.mem_cons, List.not_mem_nil, or_false] at which
    rcases which with rfl | rfl <;> simp only [State.strict] at h <;> cases h
  | not =>
    obtain _ | ⟨hk, _ | _⟩ := hms
    obtain _ | ⟨ha, _ | _⟩ := hvals
    cases h
    rw [Op.meaning, ha.isTrue_eq hk (hknown _ (by simp))]
    rfl
  | implies =>
    obtain _ | ⟨_, _ | ⟨_, _ | _⟩⟩ := hms
    obtain _ | ⟨_, _ | ⟨_, _ | _⟩⟩ := hvals
    cases h
  | ite =>
    obtain _ | ⟨_, _ | ⟨_, _ | ⟨_, _ | _⟩⟩⟩ := hms
    obtain _ | ⟨_, _ | ⟨_, _ | ⟨_, _ | _⟩⟩⟩ := hvals
    cases h
  | word which =>
    obtain _ | ⟨ha, _ | ⟨hb, _ | _⟩⟩ := hms
    obtain ⟨a, rfl⟩ := Meaning.exists_bits_of_kind ha
    obtain ⟨b, rfl⟩ := Meaning.exists_bits_of_kind hb
    obtain _ | ⟨hx, _ | ⟨hy, _ | _⟩⟩ := hvals
    obtain ⟨x, rfl, hw, hx⟩ := hx.exists_bits (hknown _ (by simp))
    obtain ⟨y, rfl, -, hy⟩ := hy.exists_bits (hknown _ (by simp))
    exact State.strict_word_says which hw hx hy h
  | comparison which =>
    obtain _ | ⟨ha, _ | ⟨hb, _ | _⟩⟩ := hms
    obtain ⟨a, rfl⟩ := Meaning.exists_bits_of_kind ha
    obtain ⟨b, rfl⟩ := Meaning.exists_bits_of_kind hb
    obtain _ | ⟨hx, _ | ⟨hy, _ | _⟩⟩ := hvals
    obtain ⟨x, rfl, -, hx⟩ := hx.exists_bits (hknown _ (by simp))
    obtain ⟨y, rfl, -, hy⟩ := hy.exists_bits (hknown _ (by simp))
    exact State.strict_comparison_says which hx hy h
  | bvnot =>
    obtain _ | ⟨ha, _ | _⟩ := hms
    obtain ⟨a, rfl⟩ := Meaning.exists_bits_of_kind ha
    obtain _ | ⟨hx, _ | _⟩ := hvals
    obtain ⟨x, rfl, hw, hx⟩ := hx.exists_bits (hknown _ (by simp))
    cases h
    exact says_ofWord rfl (toNat_not_cut hw hx)
  | concat =>
    obtain _ | ⟨ha, _ | ⟨hb, _ | _⟩⟩ := hms
    obtain ⟨a, rfl⟩ := Meaning.exists_bits_of_kind ha
    obtain ⟨b, rfl⟩ := Meaning.exists_bits_of_kind hb
    obtain _ | ⟨hx, _ | ⟨hy, _ | _⟩⟩ := hvals
    obtain ⟨x, rfl, hv, hx⟩ := hx.exists_bits (hknown _ (by simp))
    obtain ⟨y, rfl, hw, hy⟩ := hy.exists_bits (hknown _ (by simp))
    rw [State.strict_concat] at h
    split_ifs at h with hle
    cases h
    have hsum := add_le_of_not_gt hv (by unfold wrapBound; omega) hle
    exact says_ofWord (Int64.ofNat_add _ _).symm (toNat_concat_cut hsum hx hy)
  | @extract hi lo w ordered inside =>
    obtain _ | ⟨ha, _ | _⟩ := hms
    obtain ⟨a, rfl⟩ := Meaning.exists_bits_of_kind ha
    obtain _ | ⟨hx, _ | _⟩ := hvals
    obtain ⟨x, rfl, hw, hx⟩ := hx.exists_bits (hknown _ (by simp))
    cases h
    exact says_ofWord (extract_width ordered)
      (toNat_extract_cut hw (by omega) (by omega) hx rfl)
  | zeroExtend =>
    obtain _ | ⟨ha, _ | _⟩ := hms
    obtain ⟨a, rfl⟩ := Meaning.exists_bits_of_kind ha
    obtain _ | ⟨hx, _ | _⟩ := hvals
    obtain ⟨x, rfl, hw, hx⟩ := hx.exists_bits (hknown _ (by simp))
    rw [State.strict_zeroExtend, indexInt_eq] at h
    split_ifs at h with hle
    cases h
    have hindex := Nat.lt_of_lt_of_le (short rfl _ (List.mem_singleton_self _)) extensionBound_le
    have hsum := add_le_of_not_gt hw hindex hle
    exact says_ofWord (Int64.ofNat_add _ _).symm (toNat_extend_cut hsum hx)
  | select =>
    obtain _ | ⟨ha, _ | ⟨hi, _ | _⟩⟩ := hms
    obtain ⟨cells, rfl⟩ := Meaning.exists_array_of_kind ha
    obtain ⟨i, rfl⟩ := Meaning.exists_bits_of_kind hi
    obtain _ | ⟨hm, _ | ⟨hx, _ | _⟩⟩ := hvals
    obtain ⟨m, rfl, hfit, hm⟩ := hm.exists_array (hknown _ (by simp))
    obtain ⟨x, rfl, hw, hx⟩ := hx.exists_bits (hknown _ (by simp))
    simp only [State.strict, Value.word] at h
    split at h
    · next u hu =>
      cases h
      have hfu := wk.wordFits_lookup hfit hu
      have hcell := ag.cell?_of_lookup fits hfit ⟨hw, hx ▸ i.isLt⟩ hu
      have hnum := Meaning.number?_select (hfit.kind_meaning fits) i
      change Meaning.number? _ = some (u &&& mask m.dataWidth).toNat
      rw [Op.meaning, hm, hnum, ← hx, hcell, hfit.data, toNat_cut hfu.1, Nat.mod_eq_of_lt hfu.2]
    · cases h
      trivial
  | store =>
    obtain _ | ⟨ha, _ | ⟨hi, _ | ⟨hv, _ | _⟩⟩⟩ := hms
    obtain ⟨cells, rfl⟩ := Meaning.exists_array_of_kind ha
    obtain ⟨i, rfl⟩ := Meaning.exists_bits_of_kind hi
    obtain ⟨u, rfl⟩ := Meaning.exists_bits_of_kind hv
    obtain _ | ⟨hm, _ | ⟨hx, _ | ⟨hy, _ | _⟩⟩⟩ := hvals
    obtain ⟨m, rfl, hfit, hm⟩ := hm.exists_array (hknown _ (by simp))
    obtain ⟨x, rfl, -, hx⟩ := hx.exists_bits (hknown _ (by simp))
    obtain ⟨y, rfl, -, hy⟩ := hy.exists_bits (hknown _ (by simp))
    cases h
    change _ = Memory.meaning I (m.store x y)
    rw [Op.meaning, hm, Meaning.store_eq_put (hfit.kind_meaning fits), Memory.meaning_store, hx, hy]

theorem State.applyOp_says (wk : s.WellKinded sig) (fits : I.Fits sig) (ag : s.Agrees I) {op : Op}
    {indices : List Numeral} {ks : List Kind} {k : Kind} (rank : Rank op indices ks k)
    {ms : List Meaning} (hms : Meaning.HaveKinds ms ks) {vals : List Value} {v : Value}
    (hvals : List.Forall₂ (Value.Stands sig I) vals ms)
    (short : op = .zeroExtend → ∀ n ∈ indices, n.value.toNat < extensionBound)
    (h : s.applyOp op indices vals = .ok v) : v.Says I (op.meaning indices ms) := by
  unfold State.applyOp at h
  split at h
  · cases h
    exact conjunction_says hvals (mem_kind_of_forall₂ hms (rank.of_connective (by simp)).2)
  · cases h
    exact disjunction_says hvals (mem_kind_of_forall₂ hms (rank.of_connective (by simp)).2)
  · cases h
    obtain ⟨-, k₀, hsame⟩ := rank.of_equality (by simp)
    have hchain := chainEqual_says hvals (mem_kind_of_forall₂ hms hsame)
    exact Tri.value_says (fun hy => by simpa using hchain.1 hy)
      (fun hn => by simpa using hchain.2 hn)
  · cases h
    obtain ⟨-, k₀, hsame⟩ := rank.of_equality (by simp)
    have hdistinct := pairwiseDistinct_says hvals (mem_kind_of_forall₂ hms hsame)
    exact Tri.value_says (fun hy => by simpa using hdistinct.1 hy)
      (fun hn => by simpa using hdistinct.2 hn)
  · split_ifs at h with hall
    · exact State.strict_says wk fits ag rank hms hvals (List.all_eq_true.1 hall) short h
    · cases h
      trivial

theorem constant_says {base width : Nat} {digits : String} {v : Value}
    (h : constant base digits width = .ok v) :
    v.Says I (.bits width (.ofNat _ (Text.positional base digits.toList))) := by
  obtain ⟨hle, rfl⟩ := eq_ofWord_of_constant h
  refine says_ofWord rfl ?_
  rw [toNat_cut hle, BitVec.toNat_ofNat, Nat.toUInt64, UInt64.toNat_ofNat', mod_of_mod_size hle]

theorem State.symbol_says (wk : s.WellKinded sig) (ag : s.Agrees I) {x : String} {v : Value}
    (h : s.symbol x = .ok v) : v.Says I (I x) := by
  rcases State.symbol_eq_ok h with rfl | ⟨_, _, m, -, hm, rfl⟩ | ⟨w, u, hsort, hu, rfl⟩
  · trivial
  · exact ag.arrays x m hm
  · obtain ⟨n, hsig, hfit⟩ := wk.values x u hu
    obtain ⟨τ, hτ, hof⟩ := wk.declared x _ hsig
    cases hsort.symm.trans hτ
    obtain ⟨_, ⟨⟩, rfl⟩ := hof
    change (I x).number? = some (u &&& mask (Int64.ofNat n)).toNat
    rw [toNat_cut hfit.1, Nat.mod_eq_of_lt hfit.2]
    exact ag.values x u hu

theorem implication_says {va vc : Value} {a c : Meaning} (ha : va.Stands sig I a)
    (hc : vc.Stands sig I c) (hka : a.kind = .truth) (hkc : c.kind = .truth)
    (hva : ¬ (va.known = true ∧ va.truth = false)) :
    (implication va vc).Says I (.truth (!a.isTrue || c.isTrue)) := by
  unfold implication
  split_ifs with htrue hboth
  · simp only [Bool.and_eq_true] at htrue
    simp [Value.Says, hc.isTrue_eq hkc htrue.1, htrue.2]
  · simp only [Bool.and_eq_true] at hboth htrue
    have hat : va.truth = true := by simpa [hboth.1] using hva
    have hcf : vc.truth = false := by simpa [hboth.2] using htrue
    simp [Value.Says, ha.isTrue_eq hka hboth.1, hc.isTrue_eq hkc hboth.2, hat, hcf]
  · trivial

theorem State.stands_of_says (wk : s.WellKinded sig) (fits : I.Fits sig) {t : Term} {k : Kind}
    {v : Value} (hk : t.HasKind sig k) (short : t.ExtensionsBelow extensionBound)
    (hv : s.eval t = .ok v) (h : v.Says I (I.denote t)) : v.Stands sig I (I.denote t) := by
  refine ⟨?_, h⟩
  rw [I.kind_denote fits t k hk]
  exact (State.eval_hasKind_and_evalAll wk extensionBound_le).1 t k v hk short hv

/-- What is known of a well sorted term is true in every interpretation that agrees with the
state. -/
theorem State.eval_says_and_evalAll (wk : s.WellKinded sig) (fits : I.Fits sig)
    (ag : s.Agrees I) :
    (∀ t : Term, ∀ k v, t.HasKind sig k → t.ExtensionsBelow extensionBound → s.eval t = .ok v →
      v.Says I (I.denote t)) ∧
    ∀ ts : List Term, ∀ ks vs, Term.HaveKinds sig ts ks →
      Term.AllExtensionsBelow extensionBound ts → s.evalAll ts = .ok vs →
        List.Forall₂ (Value.Stands sig I) vs (I.denoteAll ts) := by
  refine State.eval.mutual_induct
    (fun t => ∀ k v, t.HasKind sig k → t.ExtensionsBelow extensionBound → s.eval t = .ok v →
      v.Says I (I.denote t))
    (fun ts => ∀ ks vs, Term.HaveKinds sig ts ks → Term.AllExtensionsBelow extensionBound ts →
      s.evalAll ts = .ok vs → List.Forall₂ (Value.Stands sig I) vs (I.denoteAll ts))
    ?bool ?binary ?hex ?symbol ?numeral ?implies ?ite ?app ?nil ?cons
  case bool =>
    intro b k v _ _ h
    rw [State.eval] at h
    cases h
    rfl
  case binary | hex =>
    intro digits k v _ _ h
    rw [State.eval] at h
    exact constant_says h
  case symbol =>
    intro x k v _ _ h
    rw [State.eval] at h
    exact State.symbol_says wk ag h
  case numeral =>
    intro n k v hk
    cases hk
  case implies =>
    intro indices a c iha ihc k v hk hz h
    obtain ⟨ks, hks, rank⟩ := hk
    obtain ⟨rfl, -⟩ := rank.of_implies
    obtain ⟨hka, hkc⟩ := Term.haveKinds_pair.1 hks
    have hta := I.kind_denote fits a _ hka
    have htc := I.kind_denote fits c _ hkc
    change v.Says I (.truth (!(I.denote a).isTrue || (I.denote c).isTrue))
    obtain ⟨va, hva, ⟨hfalse, rfl⟩ | ⟨hfalse, vc, hvc, rfl⟩⟩ := State.eval_implies h
    · have ha := State.stands_of_says wk fits hka hz.2.1 hva (iha _ va hka hz.2.1 hva)
      simp [Value.Says, ha.isTrue_eq hta hfalse.1, hfalse.2]
    · have ha := State.stands_of_says wk fits hka hz.2.1 hva (iha _ va hka hz.2.1 hva)
      have hc := State.stands_of_says wk fits hkc hz.2.2.1 hvc (ihc _ vc hkc hz.2.2.1 hvc)
      exact implication_says ha hc hta htc hfalse
  case ite =>
    intro indices c a b ihc iha ihb k v hk hz h
    obtain ⟨ks, hks, rank⟩ := hk
    cases rank.of_ite
    obtain ⟨hkc, hka, hkb⟩ := Term.haveKinds_triple.1 hks
    have htc := I.kind_denote fits c _ hkc
    change v.Says I (.choose (I.denote c) (I.denote a) (I.denote b))
    rw [Meaning.eq_truth_of_kind htc, Meaning.choose]
    obtain ⟨vc, hvc, ⟨hknown, hv⟩ | ⟨-, va, vb, hva, hvb, ⟨heq, rfl⟩ | rfl⟩⟩ := State.eval_ite h
    · have hc := State.stands_of_says wk fits hkc hz.2.1 hvc (ihc _ vc hkc hz.2.1 hvc)
      rw [hc.isTrue_eq htc hknown]
      split_ifs at hv ⊢
      · exact iha k v hka hz.2.2.1 hv
      · exact ihb k v hkb hz.2.2.2.1 hv
    · -- the condition is open, but both branches are the same
      have ha := State.stands_of_says wk fits hka hz.2.2.1 hva (iha k _ hka hz.2.2.1 hva)
      have hb := State.stands_of_says wk fits hkb hz.2.2.2.1 hvb (ihb k _ hkb hz.2.2.2.1 hvb)
      have hsame := (Value.equal_says ha hb
        ((I.kind_denote fits a k hka).trans (I.kind_denote fits b k hkb).symm)).1 heq
      rw [← hsame, ite_self]
      exact ha.2
    · trivial
  case app =>
    intro op indices args _ _ ih k v hk hz h
    obtain ⟨ks, hks, rank⟩ := hk
    rw [State.eval.eq_8 _ _ _ _ ‹_› ‹_›] at h
    obtain ⟨vals, hvals, h⟩ := exists_ok_of_bind h
    exact State.applyOp_says wk fits ag rank (I.haveKinds_denoteAll fits args ks hks)
      (ih ks vals hks hz.2 hvals) hz.1 h
  case nil =>
    intro ks vs _ _ h
    rw [State.evalAll] at h
    cases h
    exact .nil
  case cons =>
    intro t rest iht ihrest ks vs hks hz h
    obtain ⟨k, ks, rfl, hk, hks⟩ := hks
    rw [State.evalAll] at h
    obtain ⟨v, hv, h⟩ := exists_ok_of_bind h
    obtain ⟨vs', hvs, h⟩ := exists_ok_of_bind h
    cases h
    exact .cons (State.stands_of_says wk fits hk hz.1 hv (iht k v hk hz.1 hv))
      (ihrest ks vs' hks hz.2 hvs)

end CycleCheck.Propagation
