import CycleCheck.Proofs.Propagation.Definition
import CycleCheck.Proofs.Propagation.Points

/-!
Declared sorts in formulas that need not be well sorted. The value of a bit-vector symbol always
fits its declared width: every word that evaluation finds is cut to the width that it is said to
have, and a definition compares that width with the declared one. A memory is not looked at when it
becomes the memory of an array symbol, and neither is an index. So arrays respect their declarations
as long as the definitions of arrays, and the indices of the cells that are defined, are well sorted.
-/

namespace CycleCheck

/-- The terms that settling a term can come to: conjuncts and consequents. -/
inductive Term.LeadsTo : Term → Term → Prop where
  | self (t : Term) : t.LeadsTo t
  | conjunct {indices : List Numeral} {args : List Term} {t u : Term} (mem : t ∈ args)
      (leads : t.LeadsTo u) : (Term.app .and indices args).LeadsTo u
  | consequent {indices : List Numeral} {a c u : Term} (leads : c.LeadsTo u) :
      (Term.app .implies indices [a, c]).LeadsTo u

/-- Settling an equality comes to nothing else. -/
theorem Term.leadsTo_eq {indices : List Numeral} {args : List Term} {u : Term} :
    (Term.app .eq indices args).LeadsTo u ↔ u = .app .eq indices args := by
  constructor
  · intro h
    cases h
    rfl
  · rintro rfl
    exact .self _

/-- An array symbol is made equal to a term of its sort only, and a cell of it is named by an index
of its address width. Nothing is asked of other terms. -/
def Term.SetsArrays (sig : Signature) : Term → Term → Prop
  | .symbol x, other => ∀ a d, (x.name, .array a d) ∈ sig → other.HasKind sig (.array a d)
  | .app .select _ [.symbol x, index], _ =>
      ∀ a d, (x.name, .array a d) ∈ sig → index.HasKind sig (.bits a)
  | _, _ => True

/-- Every equality that can become a definition sets arrays by terms of the right sorts. -/
def Formula.SetsArrays (f : Formula) : Prop :=
  ∀ t, Command.assert t ∈ f → ∀ indices a b, t.LeadsTo (.app .eq indices [a, b]) →
    a.SetsArrays f.signature b ∧ b.SetsArrays f.signature a

namespace Propagation

variable {sig : Signature} {s : State} {bound n : Nat}

/-! ## Words are cut to their widths -/

/-- A word has no ones beyond the width it is said to have. -/
def Value.Cut : Value → Prop
  | .bits v w => v &&& mask w = v
  | _ => True

theorem cut_ofWord (v : UInt64) (w : Int64) : (Value.ofWord v w).Cut := by
  rw [Value.ofWord, Value.Cut, UInt64.and_assoc, UInt64.and_self]

/-- A width above 64 is no bound for a 64-bit word. -/
theorem lt_two_pow_of_le {v : UInt64} (h : n ≤ 64 → v.toNat < 2 ^ n) : v.toNat < 2 ^ n := by
  by_cases hn : n ≤ 64
  · exact h hn
  · exact v.toNat_lt.trans_le (Nat.pow_le_pow_right (by decide) (by omega))

theorem Value.Cut.lt {v : UInt64} (h : (Value.bits v (Int64.ofNat n)).Cut) :
    v.toNat < 2 ^ n := by
  refine lt_two_pow_of_le fun hn => ?_
  rw [← show v &&& mask (Int64.ofNat n) = v from h, toNat_cut hn]
  exact Nat.mod_lt _ (Nat.two_pow_pos n)

theorem State.cut_of_strict {op : Op} {indices : List Numeral} {vals : List Value} {v : Value}
    (h : s.strict op indices vals = .ok v) : v.Cut := by
  unfold State.strict at h
  split at h
  all_goals
    try dsimp only at h
    repeat' split at h
    all_goals cases h <;> first | exact cut_ofWord _ _ | trivial

theorem State.cut_of_applyOp {op : Op} {indices : List Numeral} {vals : List Value} {v : Value}
    (h : s.applyOp op indices vals = .ok v) : v.Cut := by
  unfold State.applyOp at h
  split at h
  · cases h
    unfold conjunction
    split_ifs <;> trivial
  · cases h
    unfold disjunction
    split_ifs <;> trivial
  · cases h
    cases chainEqual vals <;> trivial
  · cases h
    cases pairwiseDistinct vals <;> trivial
  · split_ifs at h
    · exact State.cut_of_strict h
    · cases h
      trivial

/-- Every word that evaluation finds is cut, whatever the sorts of the term and its parts. -/
theorem State.cut_of_eval : ∀ t : Term, ∀ v, s.eval t = .ok v → v.Cut := by
  refine (State.eval.mutual_induct (fun t => ∀ v, s.eval t = .ok v → v.Cut) (fun _ => True)
    ?bool ?binary ?hex ?symbol ?numeral ?implies ?ite ?app ?nil ?cons).1
  case bool =>
    intro b v h
    rw [State.eval] at h
    cases h
    trivial
  case binary | hex =>
    intro digits v h
    rw [State.eval] at h
    exact (eq_ofWord_of_constant h).2 ▸ cut_ofWord _ _
  case symbol =>
    intro x v h
    rw [State.eval] at h
    rcases State.symbol_eq_ok h with rfl | ⟨_, _, _, -, -, rfl⟩ | ⟨_, _, -, -, rfl⟩
    · trivial
    · trivial
    · exact cut_ofWord _ _
  case numeral =>
    intro n v h
    rw [State.eval] at h
    cases h
  case implies =>
    intro indices a c _ _ v h
    obtain ⟨va, _, ⟨_, rfl⟩ | ⟨_, vc, _, rfl⟩⟩ := State.eval_implies h
    · trivial
    · unfold implication
      split_ifs <;> trivial
  case ite =>
    intro indices c a b _ iha ihb v h
    obtain ⟨vc, _, ⟨_, hv⟩ | ⟨_, va, vb, hva, _, ⟨_, rfl⟩ | rfl⟩⟩ := State.eval_ite h
    · split_ifs at hv
      · exact iha v hv
      · exact ihb v hv
    · exact iha _ hva
    · trivial
  case app =>
    intro op indices args _ _ _ v h
    rw [State.eval.eq_8 _ _ _ _ ‹_› ‹_›] at h
    obtain ⟨vals, _, h⟩ := exists_ok_of_bind h
    exact State.cut_of_applyOp h
  case nil => trivial
  case cons => intros; trivial

/-! ## Declarations -/

/-- The sorts that a state knows are the declared ones, and a name has one sort. -/
structure State.Sorted (s : State) (sig : Signature) : Prop where
  functional : ∀ x k k', (x, k) ∈ sig → (x, k') ∈ sig → k = k'
  sort : ∀ x k, (x, k) ∈ sig → ∃ τ, s.sorts[x]? = some τ ∧ τ.Of k
  declared : ∀ x τ, s.sorts[x]? = some τ → ∃ k, (x, k) ∈ sig ∧ τ.Of k

theorem State.Sorted.exists_bits (h : s.Sorted sig) {x : String} {w : Int64}
    (hx : s.sorts[x]? = some (.bits w)) : ∃ n, (x, .bits n) ∈ sig ∧ w = Int64.ofNat n := by
  obtain ⟨k, hk, n, rfl, hw⟩ := h.declared x _ hx
  exact ⟨n, hk, hw⟩

theorem State.Sorted.exists_array (h : s.Sorted sig) {x : String} {a d : Int64}
    (hx : s.sorts[x]? = some (.array a d)) :
    ∃ m n, (x, .array m n) ∈ sig ∧ a = Int64.ofNat m ∧ d = Int64.ofNat n := by
  obtain ⟨k, hk, m, n, rfl, ha, hd⟩ := h.declared x _ hx
  exact ⟨m, n, hk, ha, hd⟩

theorem State.Sorted.bits (h : s.Sorted sig) {x : String} (hx : (x, .bits n) ∈ sig) :
    s.sorts[x]? = some (.bits (Int64.ofNat n)) := by
  obtain ⟨τ, hτ, hof⟩ := h.sort x _ hx
  cases τ with
  | bits w =>
    obtain ⟨m, hm, rfl⟩ := hof
    cases hm
    exact hτ
  | array a d =>
    obtain ⟨_, _, hm, -⟩ := hof
    cases hm

theorem State.Sorted.array (h : s.Sorted sig) {x : String} {a d : Nat}
    (hx : (x, .array a d) ∈ sig) :
    s.sorts[x]? = some (.array (Int64.ofNat a) (Int64.ofNat d)) := by
  obtain ⟨τ, hτ, hof⟩ := h.sort x _ hx
  cases τ with
  | bits w =>
    obtain ⟨m, hm, -⟩ := hof
    cases hm
  | array a' d' =>
    obtain ⟨_, _, hm, rfl, rfl⟩ := hof
    cases hm
    exact hτ

theorem State.sorts_add (f : Definition) : (s.add f).sorts = s.sorts := by
  cases f <;> rfl

theorem State.Sorted.add (h : s.Sorted sig) (f : Definition) : (s.add f).Sorted sig where
  functional := h.functional
  sort := by rw [State.sorts_add]; exact h.sort
  declared := by rw [State.sorts_add]; exact h.declared

/-- A command declares one new symbol, or it declares nothing. -/
theorem State.declareCommand_eq (c : Command) :
    (c.declared? = none ∧ ∀ s : State, s.declareCommand c = .ok s) ∨
      ∃ x k τ, c.declared? = some (x, k) ∧ τ.Of k ∧
        ∀ s : State, s.declareCommand c = s.declare x τ := by
  cases c with
  | declareBits x w =>
    exact .inr ⟨_, _, .bits (indexInt w), rfl, ⟨_, rfl, indexInt_eq w⟩, fun _ => rfl⟩
  | declareArray x a d =>
    exact .inr ⟨_, _, .array (indexInt a) (indexInt d), rfl,
      ⟨_, _, rfl, indexInt_eq a, indexInt_eq d⟩, fun _ => rfl⟩
  | _ => exact .inl ⟨rfl, fun _ => rfl⟩

theorem State.Sorted.declare {s' : State} (h : s.Sorted sig) {x : String} {k : Kind}
    {τ : TermSort} (hof : τ.Of k) (hs' : s.declare x τ = .ok s') :
    s'.Sorted (sig ++ [(x, k)]) := by
  unfold State.declare at hs'
  split_ifs at hs' with hold
  cases hs'
  have hnew : ∀ k', (x, k') ∉ sig := fun k' hk' => by
    obtain ⟨τ', hτ', -⟩ := h.sort x k' hk'
    exact hold (by simp [Std.HashMap.contains_eq_isSome_getElem?, hτ'])
  refine ⟨fun y k₁ k₂ h₁ h₂ => ?_, fun y k' hy => ?_, fun y τ' hy => ?_⟩
  · simp only [List.mem_append, List.mem_singleton, Prod.mk.injEq] at h₁ h₂
    rcases h₁ with h₁ | ⟨rfl, rfl⟩ <;> rcases h₂ with h₂ | ⟨hy, rfl⟩
    · exact h.functional y k₁ k₂ h₁ h₂
    · exact (hnew k₁ (hy ▸ h₁)).elim
    · exact (hnew k₂ h₂).elim
    · rfl
  · simp only [List.mem_append, List.mem_singleton, Prod.mk.injEq] at hy
    rcases hy with hy | ⟨rfl, rfl⟩
    · obtain ⟨τ', hτ', hof'⟩ := h.sort y k' hy
      have hne : x ≠ y := fun hxy => hnew k' (hxy ▸ hy)
      exact ⟨τ', by simpa [Std.HashMap.getElem?_insert, hne] using hτ', hof'⟩
    · exact ⟨τ, by simp, hof⟩
  · rw [Std.HashMap.getElem?_insert] at hy
    split_ifs at hy with hxy
    · cases hy
      obtain rfl := beq_iff_eq.1 hxy
      exact ⟨k, by simp, hof⟩
    · obtain ⟨k', hk', hof'⟩ := h.declared y τ' hy
      exact ⟨k', by simp [hk'], hof'⟩

/-- Declarations that are accepted give the state the declared sorts, each name one. -/
theorem State.Sorted.declareCommands {f : Formula} {s' : State} (h : s.Sorted sig)
    (hs' : f.foldlM State.declareCommand s = .ok s') : s'.Sorted (sig ++ f.signature) := by
  induction f generalizing s sig with
  | nil =>
    cases hs'
    rwa [show Formula.signature [] = [] from rfl, List.append_nil]
  | cons c rest ih =>
    obtain ⟨s₁, h₁, hs'⟩ := exists_ok_of_bind hs'
    rcases State.declareCommand_eq c with ⟨hnone, hsame⟩ | ⟨x, k, τ, hsome, hof, hdeclare⟩
    · rw [hsame] at h₁
      cases h₁
      rw [Formula.signature, List.filterMap_cons_none hnone]
      exact ih h hs'
    · rw [hdeclare] at h₁
      have hrest := ih (h.declare hof h₁) hs'
      rwa [List.append_assoc, List.singleton_append, Formula.signature,
        ← List.filterMap_cons_some hsome] at hrest

theorem sorted_declareAll {f : Formula} (h : declareAll f = .ok s) : s.Sorted f.signature := by
  have hempty : ({} : State).Sorted [] := ⟨by simp, by simp, by simp⟩
  exact hempty.declareCommands h

/-! ## Sorts of values -/

/-- A memory has the widths that its root is declared with, and its stores are within them. -/
structure Memory.Respects (sig : Signature) (m : Memory) (a d : Nat) : Prop where
  root : (m.root, .array a d) ∈ sig
  address : m.addressWidth = Int64.ofNat a
  data : m.dataWidth = Int64.ofNat d
  stores : ∀ p ∈ m.stores, p.1.toNat < 2 ^ a ∧ p.2.toNat < 2 ^ d

/-- A known word has the width of its sort, unless that is above 64, and a known array respects its
sort. -/
def Value.Respects (sig : Signature) : Value → Kind → Prop
  | .bits v w, .bits n => (n ≤ 64 → w = Int64.ofNat n) ∧ v.toNat < 2 ^ n
  | .array m, .array a d => m.Respects sig a d
  | .unknown, _ => True
  | _, .truth => True
  | _, _ => False

theorem Value.respects_unknown {k : Kind} : Value.unknown.Respects sig k := by
  cases k <;> trivial

theorem Value.respects_truth (v : Value) : v.Respects sig .truth := by
  cases v <;> trivial

theorem Value.respects_ofWord {w : Int64} (h : n ≤ 64 → w = Int64.ofNat n) (v : UInt64) :
    (Value.ofWord v w).Respects sig (.bits n) := by
  refine ⟨h, lt_two_pow_of_le fun hn => ?_⟩
  rw [h hn, toNat_cut hn]
  exact Nat.mod_lt _ (Nat.two_pow_pos n)

theorem Value.Respects.exists_bits {v : Value} (h : v.Respects sig (.bits n))
    (hk : v.known = true) :
    ∃ x w, v = .bits x w ∧ (n ≤ 64 → w = Int64.ofNat n) ∧ x.toNat < 2 ^ n := by
  cases v with
  | unknown => cases hk
  | bits x w => exact ⟨x, w, rfl, h⟩
  | bool | array => exact h.elim

theorem Value.Respects.exists_array {v : Value} {a d : Nat} (h : v.Respects sig (.array a d))
    (hk : v.known = true) : ∃ m, v = .array m ∧ m.Respects sig a d := by
  cases v with
  | unknown => cases hk
  | array m => exact ⟨m, rfl, h⟩
  | bool | bits => exact h.elim

theorem Memory.Respects.store {m : Memory} {a d : Nat} (h : m.Respects sig a d) {i v : UInt64}
    (hi : i.toNat < 2 ^ a) (hv : v.toNat < 2 ^ d) : (m.store i v).Respects sig a d where
  root := h.root
  address := h.address
  data := h.data
  stores := List.forall_mem_cons.2 ⟨⟨hi, hv⟩, h.stores⟩

/-- The widths of words of at most 64 bits do not wrap. -/
theorem State.widthwise_respects :
    s.Widthwise bound (fun n w => n ≤ 64 → w = Int64.ofNat n) (Value.Respects sig) where
  unknown _ := Value.respects_unknown
  bool b := (Value.bool b).respects_truth
  ofWord := Value.respects_ofWord
  exists_bits h hknown := by
    obtain ⟨x, w, rfl, hw, -⟩ := h.exists_bits hknown
    exact ⟨x, w, rfl, hw⟩
  exists_array h hknown := by
    obtain ⟨m, rfl, -⟩ := h.exists_array hknown
    exact ⟨m, rfl⟩
  narrow _ _ := rfl
  slice _ _ _ := rfl
  concat ha hb _ hle := by rw [ha (by omega), hb (by omega), Int64.ofNat_add]
  extend h _ _ hle := by rw [h (by omega), Int64.ofNat_add]
  lookup h _ _ := Memory.Respects.data h
  store hm hi hu := Memory.Respects.store hm hi.2 hu.2

/-- What is known of arrays is within their declared widths. -/
structure State.Respects (s : State) (sig : Signature) : Prop where
  arrays : ∀ x m, s.arrays[x]? = some m → ∃ a d, (x, .array a d) ∈ sig ∧ m.Respects sig a d
  cells : ∀ (c : String × UInt64) (v : UInt64), s.cells[c]? = some v →
    ∃ a d, (c.1, .array a d) ∈ sig ∧ c.2.toNat < 2 ^ a ∧ v.toNat < 2 ^ d

theorem State.symbol_respects (sorted : s.Sorted sig) (hs : s.Respects sig) {x : String}
    {k : Kind} {v : Value} (hx : (x, k) ∈ sig) (h : s.symbol x = .ok v) : v.Respects sig k := by
  rcases State.symbol_eq_ok h with rfl | ⟨_, _, m, -, hm, rfl⟩ | ⟨w, u, hsort, -, rfl⟩
  · exact Value.respects_unknown
  · obtain ⟨a, d, hsig, hfit⟩ := hs.arrays x m hm
    cases sorted.functional x _ _ hx hsig
    exact hfit
  · obtain ⟨n, hsig, rfl⟩ := sorted.exists_bits hsort
    cases sorted.functional x _ _ hx hsig
    exact Value.respects_ofWord (fun _ => rfl) u

theorem State.sortwise_respects (sorted : s.Sorted sig) (hs : s.Respects sig) :
    s.Sortwise sig UInt64.size (Value.Respects sig) :=
  State.widthwise_respects.sortwise (State.symbol_respects sorted hs)

/-- The value of a well sorted term respects the sort of the term, also if words wrap around. -/
theorem State.eval_respects (sorted : s.Sorted sig) (hs : s.Respects sig) :
    ∀ t : Term, ∀ k v, t.HasKind sig k → s.eval t = .ok v → v.Respects sig k :=
  (State.sortwise_respects sorted hs).eval_and_evalAll_of_size.1

/-! ## Definitions -/

/-- The value of a bit-vector symbol is below two to its declared width. -/
def State.WordsFit (s : State) (sig : Signature) : Prop :=
  ∀ x v, s.values[x]? = some v → ∃ n, (x, .bits n) ∈ sig ∧ v.toNat < 2 ^ n

theorem State.Defines.wordsFit {target other : Term} {f : Definition}
    (h : s.Defines target other f) (sorted : s.Sorted sig) (hs : s.WordsFit sig) :
    (s.add f).WordsFit sig := by
  cases h with
  | value sort fresh eval =>
    obtain ⟨n, hx, rfl⟩ := sorted.exists_bits sort
    have hcut : (Value.bits _ (Int64.ofNat n)).Cut := State.cut_of_eval other _ eval
    exact (forall_getElem?_insert (by simp [fresh])).2 ⟨⟨n, hx, hcut.lt⟩, hs⟩
  | array => exact hs
  | cell => exact hs

theorem State.Defines.respects {target other : Term} {f : Definition}
    (h : s.Defines target other f) (sorted : s.Sorted sig) (hs : s.Respects sig)
    (sets : target.SetsArrays sig other) : (s.add f).Respects sig := by
  have hkind := State.eval_respects sorted hs
  cases h with
  | value => exact ⟨hs.arrays, hs.cells⟩
  | array sort fresh eval =>
    obtain ⟨a, d, hx, -, -⟩ := sorted.exists_array sort
    have hm := hkind other _ _ (sets a d hx) eval
    exact ⟨(forall_getElem?_insert (by simp [fresh])).2 ⟨⟨a, d, hx, hm⟩, hs.arrays⟩, hs.cells⟩
  | @cell x _ _ _ _ v _ _ root sort rooted position known eval =>
    obtain ⟨a, d, hx, rfl, rfl⟩ := sorted.exists_array sort
    obtain ⟨i, _, rfl, -, hi⟩ := (hkind _ _ _ (sets a d hx) position).exists_bits known
    have hcut : (Value.bits v (Int64.ofNat d)).Cut := State.cut_of_eval other _ eval
    obtain ⟨hroot, hknown⟩ :
        root.Respects sig a d ∧ ∀ u, s.arrays[x.name]? = some u → u = root := by
      rcases rooted with ⟨hnone, rfl⟩ | ⟨hsome, -⟩
      · exact ⟨⟨hx, rfl, rfl, by simp⟩, by simp [hnone]⟩
      · obtain ⟨a', d', hx', hfit⟩ := hs.arrays _ _ hsome
        cases sorted.functional _ _ _ hx hx'
        exact ⟨hfit, by simp [hsome]⟩
    refine ⟨(forall_getElem?_insert hknown).2 ⟨⟨a, d, hx, hroot⟩, hs.arrays⟩, fun c v hc => ?_⟩
    change (s.cells.insert _ _)[c]? = some v at hc
    rw [Std.HashMap.getElem?_insert] at hc
    split_ifs at hc with heq
    · cases hc
      obtain rfl := beq_iff_eq.1 heq
      exact ⟨a, d, hroot.root, hi, hcut.lt⟩
    · exact hs.cells c v hc

/-- A target is free and declared, and a value is not one of its sort. A cell of a symbol that is no
array has no values at all. -/
inductive State.Refuses (s : State) (sig : Signature) : Term → Value → String → Prop where
  | word {x : Symbol} {n : Nat} {v : Value} (sort : (x.name, .bits n) ∈ sig)
      (free : s.values[x.name]? = none) (other : ∀ u, v ≠ .bits u (Int64.ofNat n)) :
      s.Refuses sig (.symbol x) v x.name
  | array {x : Symbol} {a d : Nat} {v : Value} (sort : (x.name, .array a d) ∈ sig)
      (free : s.arrays[x.name]? = none) (other : ∀ m, v ≠ .array m) :
      s.Refuses sig (.symbol x) v x.name
  | cell {x : Symbol} {indices : List Numeral} {index : Term} {i v : Value} {a d : Nat}
      (sort : (x.name, .array a d) ∈ sig) (position : s.eval index = .ok i)
      (known : i.known = true)
      (free : ∀ m, s.arrays[x.name]? = some m → m.isRoot = true ∧ s.lookup m i.word = none)
      (other : ∀ u, v ≠ .bits u (Int64.ofNat d)) :
      s.Refuses sig (.app .select indices [.symbol x, index]) v x.name
  | noArray {x : Symbol} {indices : List Numeral} {index : Term} {v : Value} {n : Nat}
      (sort : (x.name, .bits n) ∈ sig) :
      s.Refuses sig (.app .select indices [.symbol x, index]) v x.name

theorem State.Refuses.defineTerm_eq {target other : Term} {v : Value} {x : String}
    (h : s.Refuses sig target v x) (sorted : s.Sorted sig) (eval : s.eval other = .ok v)
    (known : v.known = true) : s.defineTerm target other = .error (.mismatch x) := by
  cases h with
  | @word x n _ sort free hother =>
    have hfree : s.values.contains x.name = false := by
      simp [Std.HashMap.contains_eq_isSome_getElem?, free]
    simp only [State.defineTerm, State.defineSymbol, sorted.bits sort, hfree, eval]
    cases v with
    | unknown => cases known
    | bits u w =>
      have hw : w ≠ Int64.ofNat n := fun hw => hother u (hw ▸ rfl)
      simp [hw, bind, Except.bind]
    | bool | array => rfl
  | @array x a d _ sort free hother =>
    have hfree : s.arrays.contains x.name = false := by
      simp [Std.HashMap.contains_eq_isSome_getElem?, free]
    simp only [State.defineTerm, State.defineSymbol, sorted.array sort, hfree, eval]
    cases v with
    | unknown => cases known
    | array m => exact (hother m rfl).elim
    | bool | bits => rfl
  | @cell x _ index i _ a d sort position hi free hother =>
    have hroot : (s.arrays[x.name]?).any (!·.isRoot) = false := by
      cases hm : s.arrays[x.name]? with
      | none => rfl
      | some m => simp [(free m hm).1]
    have hcell : (s.arrays[x.name]?).any (fun m => (s.lookup m i.word).isSome) = false := by
      cases hm : s.arrays[x.name]? with
      | none => rfl
      | some m => simp [(free m hm).2]
    simp only [State.defineTerm, State.defineSelect, sorted.array sort, hroot, position, bind,
      Except.bind, hi, hcell, State.defineCell, eval]
    cases v with
    | unknown => cases known
    | bits u w =>
      have hw : w ≠ Int64.ofNat d := fun hw => hother u (hw ▸ rfl)
      simp [hw]
    | bool | array => rfl
  | noArray sort => simp only [State.defineTerm, State.defineSelect, sorted.bits sort]

/-! ## Points of a run -/

theorem kept_wordsFit : Kept (fun _ => True) fun s => s.Sorted sig ∧ s.WordsFit sig where
  conjunct _ _ _ _ _ := trivial
  consequent _ _ _ _ := trivial
  define s _ a b d hs _ hd := by
    refine ⟨hs.1.add d, ?_⟩
    rcases State.defines_of_define hd with h | h
    · exact h.wordsFit hs.1 hs.2
    · exact h.wordsFit hs.1 hs.2

theorem kept_respects : Kept
    (fun t => ∀ indices a b, t.LeadsTo (.app .eq indices [a, b]) →
      a.SetsArrays sig b ∧ b.SetsArrays sig a)
    fun s => s.Sorted sig ∧ s.Respects sig where
  conjunct _ _ h _ ht _ _ _ hlead := h _ _ _ (.conjunct ht hlead)
  consequent _ _ _ h _ _ _ hlead := h _ _ _ (.consequent hlead)
  define s indices a b d hs h hd := by
    obtain ⟨hab, hba⟩ := h indices a b (.self _)
    refine ⟨hs.1.add d, ?_⟩
    rcases State.defines_of_define hd with h | h
    · exact h.respects hs.1 hs.2 hab
    · exact h.respects hs.1 hs.2 hba

theorem State.Respects.of_lookup (hs : s.Respects sig) (sorted : s.Sorted sig) {m : Memory}
    {a d : Nat} (hm : m.Respects sig a d) {i v : UInt64} (h : s.lookup m i = some v) :
    i.toNat < 2 ^ a ∧ v.toNat < 2 ^ d := by
  unfold State.lookup at h
  split at h
  · next j u hp =>
    cases h
    obtain rfl : j = i := by simpa using List.find?_some hp
    exact hm.stores _ (List.mem_of_find?_eq_some hp)
  · obtain ⟨a', d', hr, hfit⟩ := hs.cells _ v h
    cases sorted.functional _ _ _ hm.root hr
    exact hfit

/-- Nothing is defined where everything is declared. -/
theorem declareAll_respects {f : Formula} (h : declareAll f = .ok s) :
    s.WordsFit f.signature ∧ s.Respects f.signature := by
  obtain ⟨hdeclares, -⟩ := State.declareCommands_spec h
  have hvalues : s.values = {} := hdeclares.values
  have harrays : s.arrays = {} := hdeclares.arrays
  have hcells : s.cells = {} := hdeclares.cells
  exact ⟨fun x v hx => by simp [hvalues] at hx, by simp [harrays], by simp [hcells]⟩

/-- At every point of a run the values of bit-vector symbols fit their declared widths, whatever the
sorts in the formula. If the equalities that can define arrays are well sorted, every array symbol
that is defined has a memory of its declared widths, and every cell that is known is within them. An
equality whose target cannot have the value that is found for the other side fails with the name of
the target. -/
theorem declared_of_mem_points {f : Formula} (hs : s ∈ points f) :
    (∀ x v, s.value? x = some v → ∃ n, (x, .bits n) ∈ f.signature ∧ v.toNat < 2 ^ n) ∧
    (f.SetsArrays → ∀ x m, s.arrays[x]? = some m → ∃ a d, (x, .array a d) ∈ f.signature ∧
      m.addressWidth = Int64.ofNat a ∧ m.dataWidth = Int64.ofNat d ∧
      ∀ i v, s.lookup m i = some v → i.toNat < 2 ^ a ∧ v.toNat < 2 ^ d) ∧
    ∀ target other v x, s.eval other = .ok v → v.known = true →
      s.Refuses f.signature target v x → ∀ (p : Progress) (indices : List Numeral), p.state = s →
      p.settle (.app .eq indices [target, other]) = .error (.failed (.mismatch x)) ∧
      (s.defineTerm other target = .ok none →
        p.settle (.app .eq indices [other, target]) = .error (.failed (.mismatch x))) := by
  obtain ⟨hsorted, hwords⟩ := kept_wordsFit.forall_points
    (fun _ h => ⟨sorted_declareAll h, (declareAll_respects h).1⟩) (fun _ _ => trivial) s hs
  refine ⟨hwords, fun sets x m hx => ?arrays, fun target other v x eval known refuses p indices hp =>
    ?reported⟩
  case arrays =>
    obtain ⟨-, hrespects⟩ := kept_respects.forall_points
      (fun _ h => ⟨sorted_declareAll h, (declareAll_respects h).2⟩) sets s hs
    obtain ⟨a, d, hsig, hm⟩ := hrespects.arrays x m hx
    exact ⟨a, d, hsig, hm.address, hm.data, fun i v => hrespects.of_lookup hsorted hm⟩
  case reported =>
    have hterm := refuses.defineTerm_eq hsorted eval known
    subst hp
    constructor
    · simp [Progress.settle, Progress.equate, State.define, hterm, bind, Except.bind]
    · intro hnone
      simp [Progress.settle, Progress.equate, State.define, hterm, hnone, bind, Except.bind]

/-- An array with a cell, another one that is that with a store, and a byte that is the sum of words
of eight and of sixteen bits. -/
def storedByte : Formula :=
  [.declareArray ⟨"a"⟩ ⟨4⟩ ⟨8⟩, .declareArray ⟨"b"⟩ ⟨4⟩ ⟨8⟩, .declareBits ⟨"x"⟩ ⟨8⟩,
    .assert (.app .eq [] [.app .select [] [.symbol ⟨"a"⟩, .hex "1"], .hex "2a"]),
    .assert (.app .eq [] [.symbol ⟨"b"⟩, .app .store [] [.symbol ⟨"a"⟩, .hex "2", .hex "07"]]),
    .assert (.app .eq [] [.symbol ⟨"x"⟩, .app .bvadd [] [.hex "2a", .hex "002b"]])]

theorem storedByte_setsArrays : storedByte.SetsArrays := by
  have ha : ∀ m d, ("a", Kind.array m d) ∈ storedByte.signature → m = 4 ∧ d = 8 := by
    simp [storedByte, Formula.signature, Command.declared?]
  have hb : ∀ m d, ("b", Kind.array m d) ∈ storedByte.signature → m = 4 ∧ d = 8 := by
    simp [storedByte, Formula.signature, Command.declared?]
  have hx : ∀ m d, ("x", Kind.array m d) ∉ storedByte.signature := by
    simp [storedByte, Formula.signature, Command.declared?]
  intro t ht indices l r hlead
  simp only [storedByte, List.mem_cons, reduceCtorEq, Command.assert.injEq, false_or,
    List.not_mem_nil, or_false] at ht
  rcases ht with rfl | rfl | rfl <;> cases Term.leadsTo_eq.1 hlead
  · refine ⟨fun m d hsort => ?_, trivial⟩
    obtain ⟨rfl, rfl⟩ := ha m d hsort
    rfl
  · refine ⟨fun m d hsort => ?_, trivial⟩
    obtain ⟨rfl, rfl⟩ := hb m d hsort
    have hsource : ("a", Kind.array 4 8) ∈ storedByte.signature := by decide
    exact ⟨[.array 4 8, .bits 4, .bits 8], Term.haveKinds_triple.2 ⟨hsource, rfl, rfl⟩, .store⟩
  · exact ⟨fun m d hsort => (hx m d hsort).elim, trivial⟩

/-- Both arrays respect their declarations although the sum of the byte is ill sorted. -/
theorem declared_of_mem_points_storedByte : ∃ s ∈ points storedByte, s.value? "x" = some 85 ∧
    (∃ n, ("x", .bits n) ∈ storedByte.signature ∧ (85 : UInt64).toNat < 2 ^ n) ∧
    ∃ m, s.arrays["b"]? = some m ∧ s.lookup m 1 = some 42 ∧ s.lookup m 2 = some 7 ∧
      ∃ a d, ("b", .array a d) ∈ storedByte.signature ∧ m.addressWidth = Int64.ofNat a ∧
        m.dataWidth = Int64.ofNat d ∧
        ∀ i v, s.lookup m i = some v → i.toNat < 2 ^ a ∧ v.toNat < 2 ^ d := by
  have hone : constant 16 "1" ("1".length * 4) = .ok (.bits 1 4) := rfl
  have htwo : constant 16 "2" ("2".length * 4) = .ok (.bits 2 4) := rfl
  have hcell : constant 16 "2a" ("2a".length * 4) = .ok (.bits 42 8) := rfl
  have hstored : constant 16 "07" ("07".length * 4) = .ok (.bits 7 8) := rfl
  have hwide : constant 16 "002b" ("002b".length * 4) = .ok (.bits 43 16) := rfl
  have h4 : indexInt ⟨4⟩ = 4 := rfl
  have h8 : indexInt ⟨8⟩ = 8 := rfl
  have hsum : Value.ofWord 85 8 = .bits 85 8 := rfl
  obtain ⟨s, hsolve, hx, hb, hroot⟩ : ∃ s, solve storedByte = .ok (.sat s) ∧
      s.values["x"]? = some 85 ∧ s.arrays["b"]? = some ⟨"a", 4, 8, [(2, 7)]⟩ ∧
      s.cells[("a", (1 : UInt64))]? = some 42 := by
    simp [solve, storedByte, declareAll, State.declare, assertedTerms, passes_eq, pass,
      Progress.settle, Progress.equate, Progress.add, State.define, State.defineTerm,
      State.defineSymbol, State.defineSelect, State.defineCell, State.add, State.eval,
      State.evalAll, State.symbol, State.applyOp, State.strict, Value.known, Value.word, Value.width,
      Memory.store, hone, htwo, hcell, hstored, hwide, h4, h8, hsum, passes_nil, bind, Except.bind,
      pure, Except.pure, Std.HashMap.getElem?_insert, -getElem?_pos]
  have hmem : s ∈ points storedByte := List.mem_of_getLast? (getLast?_points hsolve)
  have hdeclared := declared_of_mem_points hmem
  exact ⟨s, hmem, hx, hdeclared.1 "x" 85 hx, _, hb, hroot, rfl,
    hdeclared.2.1 storedByte_setsArrays "b" _ hb⟩

/-- An array of four bits at sixteen addresses is made equal to an array of bytes at 256 addresses,
one of which is known to have a one in each bit. -/
def widerArray : Formula :=
  [.declareArray ⟨"a"⟩ ⟨4⟩ ⟨4⟩, .declareArray ⟨"b"⟩ ⟨8⟩ ⟨8⟩,
    .assert (.app .eq [] [.app .select [] [.symbol ⟨"b"⟩, .hex "10"], .hex "ff"]),
    .assert (.app .eq [] [.symbol ⟨"a"⟩, .symbol ⟨"b"⟩])]

/-- The memory is taken over as it is, with the widths of the other array and with a cell that the
symbol does not have. -/
theorem widerArray_ignores_widths :
    Term.apply .eq [] [some (.symbol ⟨"a"⟩), some (.symbol ⟨"b"⟩)] =
      .ok (.app .eq [] [.symbol ⟨"a"⟩, .symbol ⟨"b"⟩]) ∧
    ∃ s ∈ points widerArray, solve widerArray = .ok (.sat s) ∧
    ("a", .array 4 4) ∈ widerArray.signature ∧ ∃ m, s.arrays["a"]? = some m ∧
      m.addressWidth = 8 ∧ m.dataWidth = 8 ∧ s.lookup m 16 = some 255 ∧
      ¬ (16 : UInt64).toNat < 2 ^ 4 ∧ ¬ (255 : UInt64).toNat < 2 ^ 4 := by
  have hindex : constant 16 "10" ("10".length * 4) = .ok (.bits 16 8) := rfl
  have hbyte : constant 16 "ff" ("ff".length * 4) = .ok (.bits 255 8) := rfl
  have h4 : indexInt ⟨4⟩ = 4 := rfl
  have h8 : indexInt ⟨8⟩ = 8 := rfl
  obtain ⟨s, hsolve, ha, hroot⟩ : ∃ s, solve widerArray = .ok (.sat s) ∧
      s.arrays["a"]? = some ⟨"b", 8, 8, []⟩ ∧ s.cells[("b", (16 : UInt64))]? = some 255 := by
    simp [solve, widerArray, declareAll, State.declare, assertedTerms, passes_eq, pass,
      Progress.settle, Progress.equate, Progress.add, State.define, State.defineTerm,
      State.defineSymbol, State.defineSelect, State.defineCell, State.add, State.eval,
      State.symbol, Value.known, Value.word, hindex, hbyte, h4, h8, passes_nil, bind, Except.bind,
      pure, Except.pure, Std.HashMap.getElem?_insert, -getElem?_pos]
  have hmem : s ∈ points widerArray := List.mem_of_getLast? (getLast?_points hsolve)
  exact ⟨rfl, s, hmem, hsolve, by decide, _, ha, rfl, rfl, hroot, by decide, by decide⟩

end Propagation

end CycleCheck
