import CycleCheck.Proofs.Propagation.Knowledge

/-!
Sorts of evaluated terms. In a well sorted state the value of a well sorted term has the sort of
the term, as long as no zero extension is so long that widths of 64 bits wrap.
-/

namespace CycleCheck.Propagation

variable {sig : Signature} {s : State} {bound : Nat}

/-- Zero extensions below this bound do not make widths of 64 bits wrap around. -/
def extensionBound : Nat := 2 ^ 62

/-- The greatest bound for zero extensions that do not make widths of 64 bits wrap around. -/
def wrapBound : Nat := 2 ^ 63 - 64

theorem extensionBound_le : extensionBound ≤ wrapBound := by decide

theorem indexInt_eq (n : Numeral) : indexInt n = Int64.ofNat n.value.toNat := by
  rw [indexInt, ← UInt64.toInt64_ofNat', UInt64.ofNat_toNat]

theorem extract_width {hi lo : Numeral} (ordered : lo.value.toNat ≤ hi.value.toNat) :
    indexInt hi - indexInt lo + 1 = Int64.ofNat (hi.value.toNat - lo.value.toNat + 1) := by
  obtain ⟨k, hk⟩ := Nat.exists_eq_add_of_le ordered
  rw [indexInt_eq, indexInt_eq, hk, Nat.add_sub_cancel_left, Int64.ofNat_add, Int64.ofNat_add]
  grind

/-- Widths that are added do not wrap as long as the second is below the bound. -/
theorem add_le_of_not_gt {n k : Nat} (hn : n ≤ 64) (hk : k < wrapBound)
    (h : ¬ Int64.ofNat n + Int64.ofNat k > 64) : n + k ≤ 64 := by
  have h64 : (64 : Int64).toInt = 64 := rfl
  have hb : k < 2 ^ 63 - 64 := hk
  rw [← Int64.ofNat_add, gt_iff_lt, Int64.lt_iff_toInt_lt, h64,
    Int64.toInt_ofNat_of_lt (by omega)] at h
  omega

/-- A constant is the word of its digits, cut to its width. -/
theorem eq_ofWord_of_constant {base width : Nat} {digits : String} {v : Value}
    (h : constant base digits width = .ok v) : width ≤ 64 ∧
      v = .ofWord (Text.positional base digits.toList).toUInt64 (Int64.ofNat width) := by
  unfold constant at h
  split at h
  · cases h
  · cases h
    exact ⟨by omega, rfl⟩

/-- A declared symbol is unknown or has the memory or the word that it is defined to be. -/
theorem State.symbol_eq_ok {x : String} {v : Value} (h : s.symbol x = .ok v) :
    v = .unknown ∨
      (∃ a d m, s.sorts[x]? = some (.array a d) ∧ s.arrays[x]? = some m ∧ v = .array m) ∨
      ∃ w u, s.sorts[x]? = some (.bits w) ∧ s.values[x]? = some u ∧ v = .ofWord u w := by
  unfold State.symbol at h
  split at h
  · cases h
  · next a d hsort =>
    split at h <;> cases h
    · next m hm => exact .inr (.inl ⟨a, d, m, hsort, hm, rfl⟩)
    · exact .inl rfl
  · next w hsort =>
    split at h <;> cases h
    · next u hu => exact .inr (.inr ⟨w, u, hsort, hu, rfl⟩)
    · exact .inl rfl

theorem State.symbol_hasKind (wk : s.WellKinded sig) {x : String} {k : Kind} {v : Value}
    (hx : (x, k) ∈ sig) (h : s.symbol x = .ok v) : v.HasKind sig k := by
  rcases State.symbol_eq_ok h with rfl | ⟨_, _, m, -, hm, rfl⟩ | ⟨w, u, hsort, hu, rfl⟩
  · trivial
  · obtain ⟨a, d, hsig, hfit, -⟩ := wk.arrays x m hm
    exact ⟨a, d, wk.functional x _ _ hx hsig, hfit⟩
  · obtain ⟨n, hsig, hfit⟩ := wk.values x u hu
    cases wk.functional x _ _ hx hsig
    obtain ⟨τ, hτ, hof⟩ := wk.declared x _ hx
    cases hsort.symm.trans hτ
    obtain ⟨_, ⟨⟩, rfl⟩ := hof
    exact Value.hasKind_ofWord hfit.1 u

theorem hasKind_conjunction (vals : List Value) : (conjunction vals).HasKind sig .truth := by
  unfold conjunction
  split_ifs <;> trivial

theorem hasKind_disjunction (vals : List Value) : (disjunction vals).HasKind sig .truth := by
  unfold disjunction
  split_ifs <;> trivial

theorem State.strict_bvshl (x y : UInt64) (v w : Int64) :
    s.strict .bvshl [] [.bits x v, .bits y w] =
      if y ≥ v.toUInt64 then .ok (.ofWord 0 v) else .ok (.ofWord (shiftLeft x y) v) := rfl

theorem State.strict_bvlshr (x y : UInt64) (v w : Int64) :
    s.strict .bvlshr [] [.bits x v, .bits y w] =
      if y ≥ v.toUInt64 then .ok (.ofWord 0 v) else .ok (.ofWord (shiftRight x y) v) := rfl

theorem State.strict_concat (x y : UInt64) (v w : Int64) :
    s.strict .concat [] [.bits x v, .bits y w] =
      if v + w > 64 then .error (.unsupported "concatenation wider than 64 bits")
      else .ok (.ofWord (shiftLeft x w.toUInt64 ||| y) (v + w)) := rfl

theorem State.strict_zeroExtend (n : Numeral) (x : UInt64) (w : Int64) :
    s.strict .zeroExtend [n] [.bits x w] =
      if w + indexInt n > 64 then .error (.unsupported "extension wider than 64 bits")
      else .ok (.ofWord x (w + indexInt n)) := rfl

/-- The value of an implication of which both sides were looked at. -/
def implication (va vc : Value) : Value :=
  if vc.known && vc.truth then .bool true
  else if va.known && vc.known then .bool false
  else .unknown

theorem hasKind_implication (va vc : Value) : (implication va vc).HasKind sig .truth := by
  unfold implication
  split_ifs <;> trivial

/-- The value of a choice of which both branches were looked at. -/
def choice (va vb : Value) : Value := if va.equal vb == .yes then va else .unknown

section

variable {indices : List Numeral} {c a b : Term} {vc va v : Value} {e : PropagationError}

/-- The consequent is looked at unless the antecedent is known to be false. -/
theorem State.eval_implies_of_ok (h : s.eval a = .ok va) (indices : List Numeral) (c : Term) :
    s.eval (.app .implies indices [a, c]) =
      if va.known = true ∧ va.truth = false then .ok (.bool true)
      else s.eval c >>= fun vc => .ok (implication va vc) := by
  rw [State.eval, h]
  by_cases hfalse : va.known = true ∧ va.truth = false
  · simp [hfalse, bind, Except.bind, pure, Except.pure]
  · have hopen : ¬(va.known && !va.truth) = true := by simpa using hfalse
    simp only [bind, Except.bind, if_neg hopen, if_neg hfalse]
    cases s.eval c with
    | error => rfl
    | ok vc =>
      simp only [implication, pure, Except.pure]
      split_ifs <;> rfl

theorem State.eval_implies_of_error (h : s.eval a = .error e) :
    s.eval (.app .implies indices [a, c]) = .error e := by
  rw [State.eval, h]
  rfl

theorem State.eval_ite_of_known (h : s.eval c = .ok vc) (hknown : vc.known = true) :
    s.eval (.app .ite indices [c, a, b]) = s.eval (if vc.truth then a else b) := by
  rw [State.eval, h]
  simp only [bind, Except.bind, if_pos hknown]
  split_ifs <;> rfl

/-- Both branches are looked at if the condition is not known. -/
theorem State.eval_ite_of_unknown (h : s.eval c = .ok vc) (hunknown : vc.known = false)
    (indices : List Numeral) (a b : Term) : s.eval (.app .ite indices [c, a, b]) =
      s.eval a >>= fun va => s.eval b >>= fun vb => .ok (choice va vb) := by
  rw [State.eval, h]
  simp only [bind, Except.bind, hunknown, Bool.false_eq_true, if_false]
  cases s.eval a with
  | error => rfl
  | ok va =>
    cases s.eval b with
    | error => rfl
    | ok vb =>
      simp only [choice, pure, Except.pure]
      split_ifs <;> rfl

theorem State.eval_ite_of_error (h : s.eval c = .error e) :
    s.eval (.app .ite indices [c, a, b]) = .error e := by
  rw [State.eval, h]
  rfl

theorem State.eval_implies (h : s.eval (.app .implies indices [a, c]) = .ok v) :
    ∃ va, s.eval a = .ok va ∧
      ((va.known = true ∧ va.truth = false) ∧ v = .bool true ∨
        ¬ (va.known = true ∧ va.truth = false) ∧ ∃ vc, s.eval c = .ok vc ∧
          v = implication va vc) := by
  cases hva : s.eval a with
  | error => exact absurd ((State.eval_implies_of_error hva).symm.trans h) (by simp)
  | ok va =>
    rw [State.eval_implies_of_ok hva] at h
    refine ⟨va, rfl, ?_⟩
    split_ifs at h with hfalse
    · cases h
      exact .inl ⟨hfalse, rfl⟩
    · obtain ⟨vc, hvc, h⟩ := exists_ok_of_bind h
      cases h
      exact .inr ⟨hfalse, vc, hvc, rfl⟩

theorem State.eval_ite (h : s.eval (.app .ite indices [c, a, b]) = .ok v) :
    ∃ vc, s.eval c = .ok vc ∧
      (vc.known = true ∧ s.eval (if vc.truth then a else b) = .ok v ∨
        vc.known = false ∧ ∃ va vb, s.eval a = .ok va ∧ s.eval b = .ok vb ∧
          (va.equal vb = .yes ∧ v = va ∨ v = .unknown)) := by
  cases hvc : s.eval c with
  | error => exact absurd ((State.eval_ite_of_error hvc).symm.trans h) (by simp)
  | ok vc =>
    refine ⟨vc, rfl, ?_⟩
    cases hknown : vc.known with
    | true => exact .inl ⟨rfl, (State.eval_ite_of_known hvc hknown).symm.trans h⟩
    | false =>
      rw [State.eval_ite_of_unknown hvc hknown] at h
      obtain ⟨va, hva, h⟩ := exists_ok_of_bind h
      obtain ⟨vb, hvb, h⟩ := exists_ok_of_bind h
      refine .inr ⟨rfl, va, vb, hva, hvb, ?_⟩
      cases h
      unfold choice
      split_ifs with hequal
      · exact .inl ⟨by simpa using hequal, rfl⟩
      · exact .inr rfl

end

/-! ## Relations of values and sorts -/

/-- A relation of values and sorts that constants, symbols and truth values are in, and that the
operators keep as long as zero extensions are below a bound. -/
structure State.Sortwise (s : State) (sig : Signature) (bound : Nat) (R : Value → Kind → Prop) :
    Prop where
  unknown : ∀ k, R .unknown k
  bool : ∀ b, R (.bool b) .truth
  constant : ∀ {base width : Nat} {digits : String} {v : Value},
    constant base digits width = .ok v → R v (.bits width)
  symbol : ∀ {x : String} {k : Kind} {v : Value}, (x, k) ∈ sig → s.symbol x = .ok v → R v k
  strict : ∀ {op : Op} {indices : List Numeral} {ks : List Kind} {k : Kind} {vals : List Value}
    {v : Value}, Rank op indices ks k → List.Forall₂ R vals ks → (∀ u ∈ vals, u.known = true) →
    (op = .zeroExtend → ∀ n ∈ indices, n.value.toNat < bound) →
    s.strict op indices vals = .ok v → R v k

namespace State.Sortwise

variable {R : Value → Kind → Prop}

theorem of_truth (h : s.Sortwise sig bound R) {v : Value} (hv : v.HasKind sig .truth) :
    R v .truth := by
  cases v with
  | unknown => exact h.unknown .truth
  | bool b => exact h.bool b
  | bits =>
    obtain ⟨_, hn, -⟩ := hv
    cases hn
  | array =>
    obtain ⟨_, _, had, -⟩ := hv
    cases had

theorem applyOp (h : s.Sortwise sig bound R) {op : Op} {indices : List Numeral} {ks : List Kind}
    {k : Kind} (rank : Rank op indices ks k) {vals : List Value} {v : Value}
    (hvals : List.Forall₂ R vals ks)
    (short : op = .zeroExtend → ∀ n ∈ indices, n.value.toNat < bound)
    (hv : s.applyOp op indices vals = .ok v) : R v k := by
  unfold State.applyOp at hv
  split at hv
  · cases hv
    rw [(rank.of_connective (by simp)).1]
    exact h.of_truth (hasKind_conjunction vals)
  · cases hv
    rw [(rank.of_connective (by simp)).1]
    exact h.of_truth (hasKind_disjunction vals)
  · cases hv
    rw [(rank.of_equality (by simp)).1]
    exact h.of_truth (Tri.hasKind_value _)
  · cases hv
    rw [(rank.of_equality (by simp)).1]
    exact h.of_truth (Tri.hasKind_value _)
  · split_ifs at hv with hall
    · exact h.strict rank hvals (List.all_eq_true.1 hall) short hv
    · cases hv
      exact h.unknown k

/-- The value of a well sorted term is in the relation to the sort of the term. -/
theorem eval_and_evalAll (h : s.Sortwise sig bound R) :
    (∀ t : Term, ∀ k v, t.HasKind sig k → t.ExtensionsBelow bound → s.eval t = .ok v → R v k) ∧
    ∀ ts : List Term, ∀ ks vs, Term.HaveKinds sig ts ks → Term.AllExtensionsBelow bound ts →
      s.evalAll ts = .ok vs → List.Forall₂ R vs ks := by
  refine State.eval.mutual_induct
    (fun t => ∀ k v, t.HasKind sig k → t.ExtensionsBelow bound → s.eval t = .ok v → R v k)
    (fun ts => ∀ ks vs, Term.HaveKinds sig ts ks → Term.AllExtensionsBelow bound ts →
      s.evalAll ts = .ok vs → List.Forall₂ R vs ks)
    ?bool ?binary ?hex ?symbol ?numeral ?implies ?ite ?app ?nil ?cons
  case bool =>
    intro b k v hk _ hv
    rw [State.eval] at hv
    cases hv
    rw [hk]
    exact h.bool b
  case binary | hex =>
    intro digits k v hk _ hv
    rw [State.eval] at hv
    rw [hk]
    exact h.constant hv
  case symbol =>
    intro x k v hk _ hv
    rw [State.eval] at hv
    exact h.symbol hk hv
  case numeral =>
    intro n k v hk
    cases hk
  case implies =>
    intro indices a c _ _ k v hk _ hv
    obtain ⟨ks, _, rank⟩ := hk
    rw [rank.of_implies.2]
    obtain ⟨va, _, ⟨_, rfl⟩ | ⟨_, vc, _, rfl⟩⟩ := State.eval_implies hv
    · exact h.bool true
    · exact h.of_truth (hasKind_implication va vc)
  case ite =>
    intro indices c a b _ iha ihb k v hk hz hv
    obtain ⟨ks, hks, rank⟩ := hk
    cases rank.of_ite
    obtain ⟨-, hka, hkb⟩ := Term.haveKinds_triple.1 hks
    obtain ⟨vc, _, ⟨_, hv⟩ | ⟨_, va, vb, hva, _, ⟨_, rfl⟩ | rfl⟩⟩ := State.eval_ite hv
    · split_ifs at hv
      · exact iha k v hka hz.2.2.1 hv
      · exact ihb k v hkb hz.2.2.2.1 hv
    · exact iha k _ hka hz.2.2.1 hva
    · exact h.unknown k
  case app =>
    intro op indices args _ _ ih k v hk hz hv
    obtain ⟨ks, hks, rank⟩ := hk
    rw [State.eval.eq_8 _ _ _ _ ‹_› ‹_›] at hv
    obtain ⟨vals, hvals, hv⟩ := exists_ok_of_bind hv
    exact h.applyOp rank (ih ks vals hks hz.2 hvals) hz.1 hv
  case nil =>
    intro ks vs hks _ hvs
    rw [State.evalAll] at hvs
    cases hvs
    cases hks
    exact .nil
  case cons =>
    intro t rest iht ihrest ks vs hks hz hvs
    obtain ⟨k, ks, rfl, hk, hks⟩ := hks
    rw [State.evalAll] at hvs
    obtain ⟨v, hv, hvs⟩ := exists_ok_of_bind hvs
    obtain ⟨vs', hvs', hvs⟩ := exists_ok_of_bind hvs
    cases hvs
    exact .cons (iht k v hk hz.1 hv) (ihrest ks vs' hks hz.2 hvs')

/-- A relation that no zero extension breaks needs no bound. -/
theorem eval_and_evalAll_of_size (h : s.Sortwise sig UInt64.size R) :
    (∀ t : Term, ∀ k v, t.HasKind sig k → s.eval t = .ok v → R v k) ∧
    ∀ ts : List Term, ∀ ks vs, Term.HaveKinds sig ts ks → s.evalAll ts = .ok vs →
      List.Forall₂ R vs ks :=
  ⟨fun t k v hk => h.eval_and_evalAll.1 t k v hk t.extensionsBelow_size,
    fun ts ks vs hks => h.eval_and_evalAll.2 ts ks vs hks (Term.allExtensionsBelow_size ts)⟩

end State.Sortwise

/-! ## Relations of widths -/

/-- A relation of values and sorts that says which widths the words of a sort have. The operators
on words keep such widths, and arrays have words of one width. -/
structure State.Widthwise (s : State) (bound : Nat) (W : Nat → Int64 → Prop)
    (R : Value → Kind → Prop) : Prop where
  unknown : ∀ k, R .unknown k
  bool : ∀ b, R (.bool b) .truth
  ofWord : ∀ {n : Nat} {w : Int64}, W n w → ∀ x, R (.ofWord x w) (.bits n)
  exists_bits : ∀ {v : Value} {n : Nat}, R v (.bits n) → v.known = true →
    ∃ x w, v = .bits x w ∧ W n w
  exists_array : ∀ {v : Value} {a d : Nat}, R v (.array a d) → v.known = true → ∃ m, v = .array m
  narrow : ∀ {n : Nat}, n ≤ 64 → W n (Int64.ofNat n)
  slice : ∀ {n m : Nat} {w : Int64}, W n w → m ≤ n → W m (Int64.ofNat m)
  concat : ∀ {a b : Nat} {v w : Int64}, W a v → W b w → ¬ v + w > 64 → W (a + b) (v + w)
  extend : ∀ {n k : Nat} {w : Int64}, W n w → k < bound → ¬ w + Int64.ofNat k > 64 →
    W (n + k) (w + Int64.ofNat k)
  lookup : ∀ {m : Memory} {a d : Nat} {i u : UInt64}, R (.array m) (.array a d) →
    s.lookup m i = some u → W d m.dataWidth
  store : ∀ {m : Memory} {a d : Nat} {i u : UInt64} {v w : Int64}, R (.array m) (.array a d) →
    R (.bits i v) (.bits a) → R (.bits u w) (.bits d) → R (.array (m.store i u)) (.array a d)

namespace State.Widthwise

variable {W : Nat → Int64 → Prop} {R : Value → Kind → Prop}

theorem strict (h : s.Widthwise bound W R) {op : Op} {indices : List Numeral} {ks : List Kind}
    {k : Kind} (rank : Rank op indices ks k) {vals : List Value} {v : Value}
    (hvals : List.Forall₂ R vals ks) (hknown : ∀ u ∈ vals, u.known = true)
    (short : op = .zeroExtend → ∀ n ∈ indices, n.value.toNat < bound)
    (hv : s.strict op indices vals = .ok v) : R v k := by
  cases rank with
  | connective which _ | equality which _ =>
    simp only [List.mem_cons, List.not_mem_nil, or_false] at which
    rcases which with rfl | rfl | rfl <;> simp only [State.strict] at hv <;> cases hv <;>
      exact h.bool _
  | not =>
    obtain _ | ⟨_, _ | _⟩ := hvals
    cases hv
    exact h.bool _
  | implies =>
    obtain _ | ⟨_, _ | ⟨_, _ | _⟩⟩ := hvals
    cases hv
  | ite =>
    obtain _ | ⟨_, _ | ⟨_, _ | ⟨_, _ | _⟩⟩⟩ := hvals
    cases hv
  | word which =>
    obtain _ | ⟨ha, _ | ⟨hb, _ | _⟩⟩ := hvals
    obtain ⟨x, w, rfl, hw⟩ := h.exists_bits ha (hknown _ (by simp))
    simp only [List.mem_cons, List.not_mem_nil, or_false] at which
    rcases which with rfl | rfl | rfl | rfl | rfl | rfl | rfl
    case inr.inr.inr.inr.inr.inl | inr.inr.inr.inr.inr.inr =>
      simp only [State.strict] at hv
      split at hv <;> cases hv <;> exact h.ofWord hw _
    all_goals cases hv; exact h.ofWord hw _
  | bvnot =>
    obtain _ | ⟨ha, _ | _⟩ := hvals
    obtain ⟨x, w, rfl, hw⟩ := h.exists_bits ha (hknown _ (by simp))
    cases hv
    exact h.ofWord hw _
  | comparison which =>
    obtain _ | ⟨_, _ | ⟨_, _ | _⟩⟩ := hvals
    simp only [List.mem_cons, List.not_mem_nil, or_false] at which
    rcases which with rfl | rfl | rfl | rfl <;> cases hv <;> exact h.bool _
  | concat =>
    obtain _ | ⟨ha, _ | ⟨hb, _ | _⟩⟩ := hvals
    obtain ⟨x, w, rfl, hw⟩ := h.exists_bits ha (hknown _ (by simp))
    obtain ⟨y, w', rfl, hw'⟩ := h.exists_bits hb (hknown _ (by simp))
    rw [State.strict_concat] at hv
    split_ifs at hv with hwide
    cases hv
    exact h.ofWord (h.concat hw hw' hwide) _
  | extract ordered inside =>
    obtain _ | ⟨ha, _ | _⟩ := hvals
    obtain ⟨x, w, rfl, hw⟩ := h.exists_bits ha (hknown _ (by simp))
    cases hv
    rw [extract_width ordered]
    exact h.ofWord (h.slice hw (by omega)) _
  | zeroExtend =>
    obtain _ | ⟨ha, _ | _⟩ := hvals
    obtain ⟨x, w, rfl, hw⟩ := h.exists_bits ha (hknown _ (by simp))
    rw [State.strict_zeroExtend, indexInt_eq] at hv
    split_ifs at hv with hwide
    cases hv
    exact h.ofWord (h.extend hw (short rfl _ (List.mem_singleton_self _)) hwide) _
  | select =>
    obtain _ | ⟨ha, _ | ⟨hi, _ | _⟩⟩ := hvals
    obtain ⟨m, rfl⟩ := h.exists_array ha (hknown _ (by simp))
    simp only [State.strict] at hv
    split at hv
    · next u hu =>
      cases hv
      exact h.ofWord (h.lookup ha hu) _
    · cases hv
      exact h.unknown _
  | store =>
    obtain _ | ⟨ha, _ | ⟨hi, _ | ⟨hu, _ | _⟩⟩⟩ := hvals
    obtain ⟨m, rfl⟩ := h.exists_array ha (hknown _ (by simp))
    obtain ⟨i, _, rfl, _⟩ := h.exists_bits hi (hknown _ (by simp))
    obtain ⟨u, _, rfl, _⟩ := h.exists_bits hu (hknown _ (by simp))
    cases hv
    exact h.store ha hi hu

theorem sortwise (h : s.Widthwise bound W R)
    (symbol : ∀ {x : String} {k : Kind} {v : Value}, (x, k) ∈ sig → s.symbol x = .ok v → R v k) :
    s.Sortwise sig bound R where
  unknown := h.unknown
  bool := h.bool
  constant hv := by
    obtain ⟨hwidth, rfl⟩ := eq_ofWord_of_constant hv
    exact h.ofWord (h.narrow hwidth) _
  symbol := symbol
  strict rank := h.strict rank

end State.Widthwise

theorem State.widthwise_hasKind (wk : s.WellKinded sig) (le : bound ≤ wrapBound) :
    s.Widthwise bound (fun n w => w = Int64.ofNat n ∧ n ≤ 64) (Value.HasKind sig) where
  unknown _ := trivial
  bool _ := rfl
  ofWord := by
    rintro n _ ⟨rfl, hn⟩ x
    exact Value.hasKind_ofWord hn x
  exists_bits h hknown := by
    obtain ⟨x, rfl, hx⟩ := h.exists_bits hknown
    exact ⟨x, _, rfl, rfl, hx.1⟩
  exists_array h hknown := by
    obtain ⟨m, rfl, -⟩ := h.exists_array hknown
    exact ⟨m, rfl⟩
  narrow h := ⟨rfl, h⟩
  slice h hm := ⟨rfl, Nat.le_trans hm h.2⟩
  concat := by
    rintro a b _ _ ⟨rfl, ha⟩ ⟨rfl, hb⟩ hwide
    exact ⟨(Int64.ofNat_add a b).symm, add_le_of_not_gt ha (by unfold wrapBound; omega) hwide⟩
  extend := by
    rintro n k _ ⟨rfl, hn⟩ hk hwide
    exact ⟨(Int64.ofNat_add n k).symm, add_le_of_not_gt hn (Nat.lt_of_lt_of_le hk le) hwide⟩
  lookup h hu := by
    obtain ⟨m, hm, hfit⟩ := h.exists_array rfl
    cases hm
    exact ⟨hfit.data, (wk.wordFits_lookup hfit hu).1⟩
  store hm hi hu := by
    obtain ⟨m, hm, hfit⟩ := hm.exists_array rfl
    obtain ⟨i, hi, hindex⟩ := hi.exists_bits rfl
    obtain ⟨u, hu, hword⟩ := hu.exists_bits rfl
    cases hm
    cases hi
    cases hu
    exact ⟨_, _, rfl, hfit.store hindex hword⟩

theorem State.sortwise_hasKind (wk : s.WellKinded sig) (le : bound ≤ wrapBound) :
    s.Sortwise sig bound (Value.HasKind sig) :=
  (State.widthwise_hasKind wk le).sortwise (State.symbol_hasKind wk)

/-- The value of a well sorted term has the sort of the term. -/
theorem State.eval_hasKind_and_evalAll (wk : s.WellKinded sig) (le : bound ≤ wrapBound) :
    (∀ t : Term, ∀ k v, t.HasKind sig k → t.ExtensionsBelow bound → s.eval t = .ok v →
      v.HasKind sig k) ∧
    ∀ ts : List Term, ∀ ks vs, Term.HaveKinds sig ts ks →
      Term.AllExtensionsBelow bound ts → s.evalAll ts = .ok vs →
        List.Forall₂ (Value.HasKind sig) vs ks :=
  (State.sortwise_hasKind wk le).eval_and_evalAll

/-! ## Roots -/

/-- Of the operators that need all their arguments only a store gives an array. -/
theorem State.strict_eq_array {op : Op} {indices : List Numeral} {vals : List Value} {m : Memory}
    (h : s.strict op indices vals = .ok (.array m)) :
    ∃ n i v, vals = [.array n, i, v] ∧ m = n.store i.word v.word := by
  unfold State.strict at h
  split at h
  case h_19 a i v =>
    cases a with
    | array n =>
      cases h
      exact ⟨n, i, v, rfl, rfl⟩
    | _ => cases h
  all_goals
    try dsimp only at h
    repeat' split at h
    all_goals cases h

/-- An array that is found comes from a root that is known as a root. -/
theorem State.sortwise_rooted (wk : s.WellKinded sig) : s.Sortwise sig bound
    fun v _ => ∀ m, v = .array m → s.arrays[m.root]? = some m.base where
  unknown _ := nofun
  bool _ := nofun
  constant h := by
    rw [(eq_ofWord_of_constant h).2]
    exact nofun
  symbol {x k v} _ h m hm := by
    rcases State.symbol_eq_ok h with rfl | ⟨_, _, n, -, hn, rfl⟩ | ⟨_, _, -, -, rfl⟩ <;> cases hm
    obtain ⟨-, -, -, -, hbase⟩ := wk.arrays x m hn
    exact hbase
  strict _ hvals _ _ h m hm := by
    subst hm
    obtain ⟨n, i, v, rfl, rfl⟩ := State.strict_eq_array h
    obtain _ | ⟨hn, _⟩ := hvals
    exact hn n rfl

theorem State.rooted_of_eval (wk : s.WellKinded sig) {t : Term} {k : Kind} {m : Memory}
    (hk : t.HasKind sig k) (h : s.eval t = .ok (.array m)) : s.arrays[m.root]? = some m.base :=
  (State.sortwise_rooted wk).eval_and_evalAll_of_size.1 t k _ hk h m rfl

end CycleCheck.Propagation
