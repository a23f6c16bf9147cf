import CycleCheck.Proofs.Propagation.Narrow
import CycleCheck.Proofs.Propagation.Observation
import CycleCheck.Proofs.Propagation.Persistence

/-!
Evaluation where everything is defined. In a state that tells all symbols of a narrow term, words by
their values and arrays by all their cells, evaluation finds the meaning of the term: three-valued
short cuts and computation on 64-bit words come to the same as the operators themselves.
-/

namespace CycleCheck.Propagation

variable {sig : Signature} {s : State} {I : Interpretation} {vals : List Value}
  {ms : List Meaning} {v w : Value} {m : Meaning} {t a b c : Term} {k : Kind} {op : Op}
  {indices : List Numeral}

/-! ## Exact values -/

/-- A known value is a meaning: words of 64 bits hold words of their width, and a memory has all
cells of an array. -/
inductive State.Exact (s : State) : Value → Meaning → Prop where
  | truth (b : Bool) : s.Exact (.bool b) (.truth b)
  | word {n : Nat} {x : UInt64} {a : BitVec n} (narrow : n ≤ 64) (same : x.toNat = a.toNat) :
      s.Exact (.bits x (Int64.ofNat n)) (.bits n a)
  | array {memory : Memory} {a d : Nat} {cells : BitVec a → BitVec d}
      (data : memory.dataWidth = Int64.ofNat d)
      (same : ∀ i : BitVec a, ∃ j u : UInt64, j.toNat = i.toNat ∧ s.lookup memory j = some u ∧
        cells i = .ofNat d u.toNat) : s.Exact (.array memory) (.array a d cells)

/-- A sort of truth values or words. -/
def Kind.Scalar (k : Kind) : Prop := ∀ a d, k ≠ .array a d

theorem State.Exact.known (h : s.Exact v m) : v.known = true := by
  cases h <;> rfl

/-- An exact value that is not an array stands for its meaning whatever the state is. -/
theorem State.Exact.stands (h : s.Exact v m) (scalar : Kind.Scalar m.kind) :
    v.Stands [] I m := by
  cases h with
  | truth b => exact ⟨rfl, rfl⟩
  | @word n x a narrow same =>
    exact ⟨⟨n, rfl, rfl, narrow, same ▸ a.isLt⟩, congrArg some same.symm⟩
  | array => exact (scalar _ _ rfl).elim

theorem State.exact_of_stands (h : v.Stands [] I m) (known : v.known = true)
    (scalar : Kind.Scalar m.kind) : s.Exact v m := by
  cases m with
  | truth b =>
    rw [h.eq_bool known]
    exact .truth b
  | bits n a =>
    obtain ⟨x, rfl, narrow, same⟩ := h.exists_bits known
    exact .word narrow same
  | array => exact (scalar _ _ rfl).elim

/-! ## Operators on known values -/

theorem conjunction_known (h : ∀ v ∈ vals, v.known = true) : (conjunction vals).known = true := by
  unfold conjunction
  rw [List.all_eq_true.2 h, if_pos rfl]
  split <;> rfl

theorem disjunction_known (h : ∀ v ∈ vals, v.known = true) : (disjunction vals).known = true := by
  unfold disjunction
  rw [List.all_eq_true.2 h, if_pos rfl]
  split <;> rfl

theorem Tri.value_known {r : Tri} (h : r ≠ .maybe) : r.value.known = true := by
  cases r with
  | maybe => exact absurd rfl h
  | yes | no => rfl

theorem Tri.ofBool_ne_maybe (b : Bool) : Tri.ofBool b ≠ .maybe := by
  cases b <;> decide

theorem chainEqual_ne_maybe (h : ∀ v ∈ vals, ∀ w ∈ vals, v.equal w ≠ .maybe) :
    chainEqual vals ≠ .maybe := by
  induction vals with
  | nil => simp [chainEqual]
  | cons v rest ih =>
    cases rest with
    | nil => simp [chainEqual]
    | cons w rest =>
      have hfirst := h v (by simp) w (by simp)
      have hrest := ih fun x hx y hy =>
        h x (List.mem_cons_of_mem v hx) y (List.mem_cons_of_mem v hy)
      rw [chainEqual]
      cases hequal : v.equal w <;> cases hchain : chainEqual (w :: rest) <;> simp_all

theorem pairwiseDistinct_ne_maybe (h : ∀ v ∈ vals, ∀ w ∈ vals, v.equal w ≠ .maybe) :
    pairwiseDistinct vals ≠ .maybe := by
  induction vals with
  | nil => simp [pairwiseDistinct]
  | cons v rest ih =>
    have hfirst : ¬ rest.any (fun w => v.equal w == .maybe) = true := by
      simp only [List.any_eq_true, beq_iff_eq, not_exists, not_and]
      exact fun w hw => h v List.mem_cons_self w (List.mem_cons_of_mem v hw)
    have hrest := ih fun x hx y hy => h x (List.mem_cons_of_mem v hx) y (List.mem_cons_of_mem v hy)
    rw [pairwiseDistinct]
    split_ifs
    · decide
    · cases hdistinct : pairwiseDistinct rest <;> simp_all

theorem State.known_of_strict (hop : op ≠ .select) (h : s.strict op indices vals = .ok v) :
    v.known = true := by
  unfold State.strict at h
  split at h
  case h_18 => exact absurd rfl hop
  all_goals
    try dsimp only at h
    repeat' split at h
    all_goals cases h
    all_goals rfl

/-- Comparison decides exact values that are not arrays. -/
theorem State.Exact.equal_ne_maybe {n : Meaning} (hv : s.Exact v m) (hw : s.Exact w n)
    (scalar : Kind.Scalar m.kind) : v.equal w ≠ .maybe := by
  have hknown := hw.known
  unfold Value.equal
  rw [hv.known, hknown]
  cases hv with
  | truth | word => exact Tri.ofBool_ne_maybe _
  | array => exact (scalar _ _ rfl).elim

theorem State.known_of_applyOp (hop : op ≠ .select)
    (known : ∀ v ∈ vals, v.known = true) (decided : ∀ v ∈ vals, ∀ w ∈ vals, v.equal w ≠ .maybe)
    (h : s.applyOp op indices vals = .ok v) : v.known = true := by
  unfold State.applyOp at h
  split at h
  · cases h
    exact conjunction_known known
  · cases h
    exact disjunction_known known
  · cases h
    exact Tri.value_known (chainEqual_ne_maybe decided)
  · cases h
    exact Tri.value_known (pairwiseDistinct_ne_maybe decided)
  · rw [if_pos (List.all_eq_true.2 known)] at h
    exact State.known_of_strict hop h

theorem wellKinded_empty : ({} : State).WellKinded [] :=
  (declareAll_spec (f := []) (by simp [Formula.signature]) rfl).1

/-- Exact values that are not arrays have the sorts of their meanings. -/
theorem hasKinds_of_exact {ks : List Kind} (hvals : List.Forall₂ s.Exact vals ms)
    (hms : Meaning.HaveKinds ms ks) (scalar : ∀ k ∈ ks, Kind.Scalar k) :
    List.Forall₂ (Value.HasKind []) vals ks := by
  induction hvals generalizing ks with
  | nil =>
    cases hms
    exact .nil
  | cons hv _ ih =>
    obtain _ | ⟨hm, hrest⟩ := hms
    obtain ⟨hk, hks⟩ := List.forall_mem_cons.1 scalar
    have hkind := (hv.stands (I := fun _ => .truth false) (hm ▸ hk)).1
    exact .cons (hm ▸ hkind) (ih hrest hks)

theorem stands_of_exact (hvals : List.Forall₂ s.Exact vals ms)
    (scalar : ∀ m ∈ ms, Kind.Scalar m.kind) : List.Forall₂ (Value.Stands [] I) vals ms := by
  induction hvals with
  | nil => exact .nil
  | cons hv _ ih =>
    obtain ⟨hm, hms⟩ := List.forall_mem_cons.1 scalar
    exact .cons (hv.stands hm) (ih hms)

/-- Operators on truth values and words, of any number of arguments, compute what they mean. -/
theorem State.applyOp_exact {ks : List Kind} (rank : Rank op indices ks k)
    (plain : op ∉ [Op.implies, .ite, .select, .store]) (scalar : ∀ k' ∈ ks, Kind.Scalar k')
    (short : op = .zeroExtend → ∀ n ∈ indices, n.value.toNat < extensionBound)
    (narrow : ∀ w, k = .bits w → w ≤ 64) (hms : Meaning.HaveKinds ms ks)
    (hvals : List.Forall₂ s.Exact vals ms) :
    ∃ v, s.applyOp op indices vals = .ok v ∧ s.Exact v (op.meaning indices ms) := by
  obtain ⟨himplies, hite, hselect, hstore⟩ :
      op ≠ .implies ∧ op ≠ .ite ∧ op ≠ .select ∧ op ≠ .store := by simpa using plain
  have hscalar : ∀ m ∈ ms, Kind.Scalar m.kind := by
    intro m hm
    obtain ⟨k', hk', hkind⟩ := exists_right_of_mem hms hm
    exact hkind ▸ scalar k' hk'
  have hknown : ∀ v ∈ vals, v.known = true := by
    intro v hv
    obtain ⟨m, -, hexact⟩ := exists_right_of_mem hvals hv
    exact hexact.known
  have hdecided : ∀ v ∈ vals, ∀ w ∈ vals, v.equal w ≠ .maybe := by
    intro v hv w hw
    obtain ⟨m, hm, hexact⟩ := exists_right_of_mem hvals hv
    obtain ⟨n, -, hexact'⟩ := exists_right_of_mem hvals hw
    exact hexact.equal_ne_maybe hexact' (hscalar m hm)
  -- nothing of the state is needed, so that the empty one and any interpretation will do
  obtain ⟨J⟩ : Nonempty Interpretation := ⟨fun _ => .truth false⟩
  have hempty : s.applyOp op indices vals = ({} : State).applyOp op indices vals :=
    State.applyOp_congr hselect indices vals
  have hkinds := hasKinds_of_exact hvals hms scalar
  have hstands : List.Forall₂ (Value.Stands [] J) vals ms := stands_of_exact hvals hscalar
  obtain ⟨v, hv⟩ := State.exists_applyOp (s := {}) rank (by simp [himplies, hite]) narrow hkinds
  have hkind :=
    (State.sortwise_hasKind wellKinded_empty extensionBound_le).applyOp rank hkinds short hv
  have hsays := State.applyOp_says (I := J) wellKinded_empty (by simp [Interpretation.Fits])
    ((declareAll_spec (f := []) (by simp [Formula.signature]) rfl).2 J) rank hms hstands short hv
  have hmeaning := Op.kind_meaning rank hms
  refine ⟨v, hempty.trans hv, State.exact_of_stands ⟨hmeaning ▸ hkind, hsays⟩
    (State.known_of_applyOp hselect hknown hdecided hv) ?_⟩
  rw [hmeaning]
  intro a d
  cases rank <;> simp_all

/-! ## Arrays -/

/-- A chosen cell is the latest store at its index, or the cell of the root. -/
theorem State.select_exact {x d : Nat} {cells : BitVec x → BitVec d} {i : BitVec x}
    (hv : s.Exact v (.array x d cells)) (hw : s.Exact w (.bits x i)) (narrow : d ≤ 64) :
    ∃ u, s.applyOp .select indices [v, w] = .ok u ∧ s.Exact u (.bits d (cells i)) := by
  cases hv with
  | @array memory _ _ _ data same =>
    cases hw with
    | @word _ y _ _ hy =>
      obtain ⟨j, u, hj, hu, hcell⟩ := same i
      obtain rfl : j = y := UInt64.toNat_inj.1 (hj.trans hy.symm)
      refine ⟨.ofWord u memory.dataWidth, ?_, ?_⟩
      · change s.strict .select indices [.array memory, .bits j (Int64.ofNat x)] = _
        simp only [State.strict, Value.word, hu]
      · rw [data, hcell]
        refine .word narrow ?_
        rw [toNat_cut narrow, BitVec.toNat_ofNat]

/-- A store changes the cell at its index. -/
theorem State.store_exact {x d : Nat} {cells : BitVec x → BitVec d} {i : BitVec x}
    {e : BitVec d} {u : Value} (hv : s.Exact v (.array x d cells)) (hw : s.Exact w (.bits x i))
    (hu : s.Exact u (.bits d e)) :
    ∃ r, s.applyOp .store indices [v, w, u] = .ok r ∧
      s.Exact r (.array x d (Function.update cells i e)) := by
  cases hv with
  | @array memory _ _ _ data same =>
    cases hw with
    | @word _ y _ _ hy =>
      cases hu with
      | @word _ z _ _ hz =>
        refine ⟨.array (memory.store y z), rfl, .array data fun i' => ?_⟩
        by_cases h : i' = i
        · refine ⟨y, z, by rw [h, hy], by rw [State.lookup_store, if_pos rfl], ?_⟩
          rw [h, Function.update_self, hz, BitVec.ofNat_toNat, BitVec.setWidth_eq]
        · obtain ⟨j, r, hj, hr, hcell⟩ := same i'
          have hne : y ≠ j := by
            rintro rfl
            exact h (BitVec.eq_of_toNat_eq (hj.symm.trans hy))
          refine ⟨j, r, hj, by rw [State.lookup_store, if_neg hne, hr], ?_⟩
          rw [Function.update_of_ne h, hcell]

/-! ## Terms -/

/-- A state tells all symbols of a term, as an interpretation has them. -/
def State.Tells (s : State) (I : Interpretation) (t : Term) : Prop :=
  ∀ x : Symbol, (Term.symbol x).Within t → ∃ v, s.symbol x.name = .ok v ∧ s.Exact v (I x.name)

theorem State.Tells.of_mem {args : List Term} (h : s.Tells I (.app op indices args))
    (ht : t ∈ args) : s.Tells I t := fun x hx => h x (.arg ht hx)

theorem constant_exact {base width : Nat} {digits : String} (narrow : width ≤ 64) :
    ∃ v, constant base digits width = .ok v ∧
      s.Exact v (.bits width (.ofNat _ (Text.positional base digits.toList))) := by
  refine ⟨_, if_neg (by omega), .word narrow ?_⟩
  rw [toNat_cut narrow, BitVec.toNat_ofNat, Nat.toUInt64, UInt64.toNat_ofNat',
    mod_of_mod_size narrow]

theorem haveKinds_iff {ts : List Term} {ks : List Kind} :
    Term.HaveKinds sig ts ks ↔ List.Forall₂ (Term.HasKind sig) ts ks := by
  induction ts generalizing ks with
  | nil => simp [Term.HaveKinds]
  | cons t rest ih =>
    simp only [Term.HaveKinds, List.forall₂_cons_left_iff, ih]
    grind

/-- Operators of tame terms other than choices, selects and stores do not look at arrays. -/
theorem Tame.scalar_of_app {args : List Term} {ks : List Kind}
    (h : Tame sig (.app op indices args) k) (rank : Rank op indices ks k)
    (hks : Term.HaveKinds sig args ks) (plain : op ∉ [Op.ite, .select, .store]) :
    ∀ k' ∈ ks, Kind.Scalar k' := by
  rintro k' hk' a d rfl
  cases rank with
  | equality which =>
    obtain ⟨t, ht, hkind⟩ := exists_left_of_mem (haveKinds_iff.1 hks) hk'
    exact h.scalar op [] args (.self _) which t ht a d hkind
  | connective _ all => cases all _ hk'
  | _ => simp_all

/-- The value of an application is exact if the values of its arguments are. -/
theorem State.app_exact {args : List Term} (fits : I.Fits sig)
    (h : Tame sig (.app op indices args) k) (plain : op ∉ [Op.implies, .ite])
    (hvals : List.Forall₂ s.Exact vals (I.denoteAll args)) :
    ∃ v, s.applyOp op indices vals = .ok v ∧ s.Exact v (I.denote (.app op indices args)) := by
  obtain ⟨ks, hks, rank, -⟩ := h.of_app
  have hms := I.haveKinds_denoteAll fits args ks hks
  have hscalar := h.scalar_of_app rank hks
  change ∃ v, _ ∧ s.Exact v (op.meaning indices (I.denoteAll args))
  generalize I.denoteAll args = ms at hms hvals ⊢
  by_cases hselect : op = .select
  · subst hselect
    obtain ⟨a, d, rfl, rfl⟩ := rank.of_select
    obtain _ | ⟨ha, _ | ⟨hi, _ | _⟩⟩ := hms
    obtain ⟨cells, rfl⟩ := Meaning.exists_array_of_kind ha
    obtain ⟨i, rfl⟩ := Meaning.exists_bits_of_kind hi
    obtain _ | ⟨hv, _ | ⟨hw, _ | _⟩⟩ := hvals
    simpa [Op.meaning, Meaning.select] using State.select_exact hv hw h.width_le
  · by_cases hstore : op = .store
    · subst hstore
      obtain ⟨a, d, rfl, rfl⟩ := rank.of_store
      obtain _ | ⟨ha, _ | ⟨hi, _ | ⟨he, _ | _⟩⟩⟩ := hms
      obtain ⟨cells, rfl⟩ := Meaning.exists_array_of_kind ha
      obtain ⟨i, rfl⟩ := Meaning.exists_bits_of_kind hi
      obtain ⟨e, rfl⟩ := Meaning.exists_bits_of_kind he
      obtain _ | ⟨hv, _ | ⟨hw, _ | ⟨hu, _ | _⟩⟩⟩ := hvals
      simpa [Op.meaning, Meaning.store] using State.store_exact hv hw hu
    · exact State.applyOp_exact rank (by simp_all) (hscalar (by simp_all)) h.short.1
        (fun w hw => (hw ▸ h).width_le) hms hvals

/-- A tame term has its meaning as its value, if the state tells its symbols. -/
theorem State.eval_exact_and_evalAll (fits : I.Fits sig) :
    (∀ t : Term, ∀ k, Tame sig t k → s.Tells I t →
      ∃ v, s.eval t = .ok v ∧ s.Exact v (I.denote t)) ∧
    ∀ ts : List Term, (∀ t ∈ ts, (∃ k, Tame sig t k) ∧ s.Tells I t) →
      ∃ vs, s.evalAll ts = .ok vs ∧ List.Forall₂ s.Exact vs (I.denoteAll ts) := by
  refine State.eval.mutual_induct
    (fun t => ∀ k, Tame sig t k → s.Tells I t → ∃ v, s.eval t = .ok v ∧ s.Exact v (I.denote t))
    (fun ts => (∀ t ∈ ts, (∃ k, Tame sig t k) ∧ s.Tells I t) →
      ∃ vs, s.evalAll ts = .ok vs ∧ List.Forall₂ s.Exact vs (I.denoteAll ts))
    ?bool ?binary ?hex ?symbol ?numeral ?implies ?ite ?app ?nil ?cons
  case bool =>
    intro b k _ _
    exact ⟨_, rfl, .truth b⟩
  case binary | hex =>
    intro digits k h _
    obtain rfl : k = .bits _ := h.kind
    exact constant_exact h.width_le
  case symbol =>
    intro x k _ tells
    exact tells x (.self _)
  case numeral =>
    intro n k h
    exact h.kind.elim
  case implies =>
    intro indices a c iha ihc k h tells
    obtain ⟨ha, hc⟩ := h.of_implies
    obtain ⟨va, hva, hexacta⟩ := iha _ ha (tells.of_mem (by simp))
    obtain ⟨vc, hvc, hexactc⟩ := ihc _ hc (tells.of_mem (by simp))
    change ∃ v, _ ∧ s.Exact v (.truth (!(I.denote a).isTrue || (I.denote c).isTrue))
    rw [Meaning.eq_truth_of_kind (I.kind_denote fits a _ ha.kind)] at hexacta
    rw [Meaning.eq_truth_of_kind (I.kind_denote fits c _ hc.kind)] at hexactc
    generalize (I.denote a).isTrue = x at hexacta ⊢
    generalize (I.denote c).isTrue = y at hexactc ⊢
    cases hexacta
    cases hexactc
    have heval : s.eval (.app .implies indices [a, c]) = .ok (.bool (!x || y)) := by
      rw [State.eval_implies_of_ok hva, hvc]
      cases x <;> cases y <;> rfl
    exact ⟨_, heval, .truth _⟩
  case ite =>
    intro indices c a b ihc iha ihb k h tells
    obtain ⟨hc, ha, hb⟩ := h.of_ite
    obtain ⟨vc, hvc, hexactc⟩ := ihc _ hc (tells.of_mem (by simp))
    change ∃ v, _ ∧ s.Exact v (.choose (I.denote c) (I.denote a) (I.denote b))
    rw [Meaning.eq_truth_of_kind (I.kind_denote fits c _ hc.kind)] at hexactc ⊢
    generalize (I.denote c).isTrue = x at hexactc ⊢
    cases hexactc
    rw [State.eval_ite_of_known hvc rfl]
    cases x with
    | true => exact iha k ha (tells.of_mem (by simp))
    | false => exact ihb k hb (tells.of_mem (by simp))
  case app =>
    intro op indices args hnotImplies hnotIte ih k h tells
    obtain ⟨ks, hks, rank, -⟩ := h.of_app
    obtain ⟨vals, hvals, hexact⟩ := ih fun t ht => ⟨h.exists_of_mem ht, tells.of_mem ht⟩
    have hplain := plain_of_rank rank hks.length_eq hnotImplies hnotIte
    rw [State.eval.eq_8 _ _ _ _ ‹_› ‹_›, hvals]
    exact State.app_exact fits h hplain hexact
  case nil =>
    intro _
    exact ⟨[], rfl, .nil⟩
  case cons =>
    intro t rest iht ihrest h
    obtain ⟨⟨⟨k, hk⟩, tells⟩, hrest⟩ := List.forall_mem_cons.1 h
    obtain ⟨v, hv, hexact⟩ := iht k hk tells
    obtain ⟨vs, hvs, hexacts⟩ := ihrest hrest
    exact ⟨v :: vs, State.evalAll_cons hv hvs, .cons hexact hexacts⟩

/-! ## States in which symbols are defined -/

/-- A state knows the sorts of the declared symbols. -/
structure State.Declared (s : State) (sig : Signature) : Prop where
  functional : ∀ x k k', (x, k) ∈ sig → (x, k') ∈ sig → k = k'
  declared : ∀ x k, (x, k) ∈ sig → ∃ τ, s.sorts[x]? = some τ ∧ τ.Of k

/-- A symbol is defined: a word has a value, and an array has a memory of its data width with a
known cell at every index of the address width. -/
def State.Defined (s : State) (x : String) : Kind → Prop
  | .truth => False
  | .bits _ => (s.value? x).isSome
  | .array a d => ∃ memory, s.arrays[x]? = some memory ∧ memory.dataWidth = Int64.ofNat d ∧
      ∀ i < 2 ^ a, ∃ j : UInt64, j.toNat = i ∧ (s.lookup memory j).isSome

/-- The interpretation that a state gives: words have their values and arrays their cells; what is
not known is zero. -/
def State.reading (s : State) (sig : Signature) : Interpretation := fun x =>
  match sig.lookup x with
  | some (.bits w) => .bits w (.ofNat w ((s.value? x).getD 0).toNat)
  | some (.array a d) =>
      .array a d fun i => .ofNat d ((s.cell? x (.ofNat i.toNat)).getD 0).toNat
  | _ => .truth false

theorem lookup_of_mem {x : String} (unique : ∀ k', (x, k') ∈ sig → k' = k) (hx : (x, k) ∈ sig) :
    sig.lookup x = some k := by
  induction sig with
  | nil => cases hx
  | cons d rest ih =>
    obtain ⟨y, k'⟩ := d
    by_cases hy : x = y
    · subst hy
      rw [List.lookup_cons_self, unique k' List.mem_cons_self]
    · have hrest : (x, k) ∈ rest := by simpa [hy] using hx
      rw [List.lookup_cons, beq_eq_false_iff_ne.2 hy]
      exact ih (fun k'' h => unique k'' (List.mem_cons_of_mem _ h)) hrest

theorem State.Declared.lookup (h : s.Declared sig) {x : String} (hx : (x, k) ∈ sig) :
    sig.lookup x = some k :=
  lookup_of_mem (fun k' hk' => h.functional x k' k hk' hx) hx

/-- The interpretation of a state has the declared sorts. -/
theorem State.Declared.fits_reading (h : s.Declared sig) : (s.reading sig).Fits sig := by
  intro x k hx
  rw [State.reading, h.lookup hx]
  cases k <;> rfl

/-- Subterms of a well sorted term are well sorted. -/
theorem exists_hasKind_of_within {u : Term} (h : u.Within t) (ht : t.HasKind sig k) :
    ∃ k', u.HasKind sig k' := by
  induction h generalizing k with
  | self => exact ⟨k, ht⟩
  | arg mem _ ih =>
    obtain ⟨ks, hks, -⟩ := ht
    obtain ⟨k', -, hk'⟩ := Term.HaveKinds.mem hks mem
    exact ih hk'

/-- A state in which the symbols of a tame term are defined tells them. -/
theorem State.Declared.tells (h : s.Declared sig) (ht : Tame sig t k)
    (defined : ∀ (x : Symbol) k', (Term.symbol x).Within t → (x.name, k') ∈ sig →
      s.Defined x.name k') : s.Tells (s.reading sig) t := by
  intro x hx
  obtain ⟨k', hk'⟩ := exists_hasKind_of_within hx ht.kind
  have hdefined := defined x k' hx hk'
  obtain ⟨τ, hτ, hof⟩ := h.declared x.name k' hk'
  rw [State.reading, h.lookup hk', State.symbol, hτ]
  cases k' with
  | truth => exact hdefined.elim
  | bits n =>
    obtain ⟨u, hu⟩ := Option.isSome_iff_exists.1 hdefined
    have hnarrow : n ≤ 64 := ht.narrow _ n hx hk'
    obtain rfl := hof.eq_bits
    rw [State.value?] at hu
    simp only [hu]
    refine ⟨_, rfl, .word hnarrow ?_⟩
    rw [toNat_cut hnarrow, BitVec.toNat_ofNat, State.value?, hu, Option.getD_some]
  | array n d =>
    obtain ⟨memory, hm, hdata, hcells⟩ := hdefined
    obtain rfl := hof.eq_array
    simp only [hm]
    refine ⟨_, rfl, .array hdata fun i => ?_⟩
    obtain ⟨j, hj, hknown⟩ := hcells i.toNat i.isLt
    obtain ⟨u, hu⟩ := Option.isSome_iff_exists.1 hknown
    refine ⟨j, u, hj, hu, ?_⟩
    rw [← hj, UInt64.ofNat_toNat, State.cell?, hm]
    simp only [hu, Option.getD_some]

/-- A narrow well sorted term that compares no arrays has its exact meaning as its value in every
state in which its symbols are defined. -/
theorem eval_of_defined (declared : s.Declared sig) (ht : Tame sig t k)
    (defined : ∀ (x : Symbol) k', (Term.symbol x).Within t → (x.name, k') ∈ sig →
      s.Defined x.name k') :
    ∃ v, s.eval t = .ok v ∧ v.known = true ∧ s.Exact v ((s.reading sig).denote t) ∧
      ((s.reading sig).denote t).kind = k := by
  have hfits := declared.fits_reading
  obtain ⟨v, hv, hexact⟩ :=
    (State.eval_exact_and_evalAll hfits).1 t k ht (declared.tells ht defined)
  exact ⟨v, hv, hexact.known, hexact, Interpretation.kind_denote hfits t k ht.kind⟩

/-- A state that knows a word and both cells of an array. -/
def twoCells : State where
  sorts := (({} : Std.HashMap String TermSort).insert "a" (.array 1 8)).insert "x" (.bits 8)
  values := ({} : Std.HashMap String UInt64).insert "x" 3
  arrays := ({} : Std.HashMap String Memory).insert "a" ⟨"a", 1, 8, []⟩
  cells := (({} : Std.HashMap (String × UInt64) UInt64).insert ("a", 0) 5).insert ("a", 1) 7

/-- The sorts of what it knows. -/
def twoCellsSignature : Signature := [("a", .array 1 8), ("x", .bits 8)]

/-- The word, stored into the array and read back. -/
def storedCell : Term :=
  .app .select [] [.app .store [] [.symbol ⟨"a"⟩, .binary "1", .symbol ⟨"x"⟩], .binary "1"]

theorem within_storedCell {u : Term} (h : u.Within storedCell) : u = storedCell ∨
    u = .app .store [] [.symbol ⟨"a"⟩, .binary "1", .symbol ⟨"x"⟩] ∨ u = .symbol ⟨"a"⟩ ∨
      u = .binary "1" ∨ u = .symbol ⟨"x"⟩ := by
  rw [storedCell] at h ⊢
  simp only [Term.within_app, List.mem_cons, List.not_mem_nil, or_false, exists_eq_or_imp,
    exists_eq_left] at h
  have hleaf : ∀ {v : Term}, (∀ op indices args, v ≠ .app op indices args) → u.Within v → u = v :=
    fun leaf h => (Term.within_leaf leaf).1 h
  rcases h with h | (h | h | h | h) | h
  · exact .inl h
  · exact .inr (.inl h)
  · exact .inr (.inr (.inl (hleaf (by simp) h)))
  · exact .inr (.inr (.inr (.inl (hleaf (by simp) h))))
  · exact .inr (.inr (.inr (.inr (hleaf (by simp) h))))
  · exact .inr (.inr (.inr (.inl (hleaf (by simp) h))))

theorem tame_storedCell : Tame twoCellsSignature storedCell (.bits 8) := by
  have ha : ("a", Kind.array 1 8) ∈ twoCellsSignature := by decide
  have hx : ("x", Kind.bits 8) ∈ twoCellsSignature := by decide
  have hstore : Term.HasKind twoCellsSignature
      (.app .store [] [.symbol ⟨"a"⟩, .binary "1", .symbol ⟨"x"⟩]) (.array 1 8) :=
    ⟨_, Term.haveKinds_triple.2 ⟨ha, rfl, hx⟩, .store⟩
  refine ⟨⟨_, Term.haveKinds_pair.2 ⟨hstore, rfl⟩, .select⟩, fun u w hu hk => ?_,
    fun op indices args hu hop => ?_⟩
  · rcases within_storedCell hu with rfl | rfl | rfl | rfl | rfl
    · obtain ⟨ks, hks, rank⟩ := hk
      obtain ⟨n, d, rfl, hkind⟩ := rank.of_select
      cases hkind
      obtain ⟨⟨ks', hks', rank'⟩, -⟩ := Term.haveKinds_pair.1 hks
      obtain ⟨_, _, rfl, hkind'⟩ := rank'.of_store
      cases hkind'
      obtain ⟨harray, -, -⟩ := Term.haveKinds_triple.1 hks'
      simp only [Term.HasKind, twoCellsSignature, List.mem_cons, Prod.mk.injEq] at harray
      simp at harray
      omega
    · obtain ⟨ks, -, rank⟩ := hk
      obtain ⟨_, _, -, hkind⟩ := rank.of_store
      cases hkind
    · simp [Term.HasKind, twoCellsSignature] at hk
    · cases hk
      decide
    · simp [Term.HasKind, twoCellsSignature] at hk
      omega
  · rcases within_storedCell hu with h | h | h | h | h <;> simp_all [storedCell]

/-- The word is what is found. -/
theorem eval_of_defined_storedCell : twoCells.eval storedCell = .ok (.bits 3 8) ∧
    twoCells.Exact (.bits 3 8) ((twoCells.reading twoCellsSignature).denote storedCell) := by
  have hdeclared : twoCells.Declared twoCellsSignature := by
    refine ⟨?_, ?_⟩
    · simp [twoCellsSignature]
      grind
    · simp only [twoCellsSignature, List.mem_cons, List.not_mem_nil, or_false, Prod.mk.injEq]
      rintro x k (⟨rfl, rfl⟩ | ⟨rfl, rfl⟩)
      · exact ⟨.array 1 8, by simp [twoCells, Std.HashMap.getElem_insert], 1, 8, rfl, rfl, rfl⟩
      · exact ⟨.bits 8, by simp [twoCells], 8, rfl, rfl⟩
  have hdefined : ∀ (x : Symbol) k', (Term.symbol x).Within storedCell →
      (x.name, k') ∈ twoCellsSignature → twoCells.Defined x.name k' := by
    simp only [twoCellsSignature, List.mem_cons, List.not_mem_nil, or_false, Prod.mk.injEq]
    rintro ⟨x⟩ k' - (⟨rfl, rfl⟩ | ⟨rfl, rfl⟩)
    · refine ⟨⟨"a", 1, 8, []⟩, by simp [twoCells], rfl, fun i hi => ?_⟩
      obtain rfl | rfl : i = 0 ∨ i = 1 := by omega
      · exact ⟨0, rfl, by simp [State.lookup, twoCells]⟩
      · exact ⟨1, rfl, by simp [State.lookup, twoCells]⟩
    · simp [State.Defined, State.value?, twoCells]
  have heval : twoCells.eval storedCell = .ok (.bits 3 8) := by
    have ha : twoCells.eval (.symbol ⟨"a"⟩) = .ok (.array ⟨"a", 1, 8, []⟩) := by
      simp [State.eval, State.symbol, twoCells, Std.HashMap.getElem_insert]
    have hx : twoCells.eval (.symbol ⟨"x"⟩) = .ok (.bits 3 8) := by
      simp [State.eval, State.symbol, twoCells]
      rfl
    have hone : twoCells.eval (.binary "1") = .ok (.bits 1 1) := rfl
    have hstored : twoCells.eval (.app .store [] [.symbol ⟨"a"⟩, .binary "1", .symbol ⟨"x"⟩]) =
        .ok (.array ⟨"a", 1, 8, [(1, 3)]⟩) := by
      change twoCells.evalAll _ >>= twoCells.applyOp .store [] = _
      rw [State.evalAll_cons ha (State.evalAll_pair hone hx)]
      rfl
    change twoCells.evalAll _ >>= twoCells.applyOp .select [] = _
    rw [State.evalAll_pair hstored hone]
    rfl
  obtain ⟨v, hv, -, hexact, -⟩ := eval_of_defined hdeclared tame_storedCell hdefined
  obtain rfl := Except.ok.inj (hv.symm.trans heval)
  exact ⟨heval, hexact⟩

end CycleCheck.Propagation
