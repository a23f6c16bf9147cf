import CycleCheck.Proofs.Propagation.Narrow
import CycleCheck.Proofs.Propagation.Persistence

/-!
States in which nothing can be done. A state and the assertions that wait in it account for what was
settled before: an assertion waits, holds, or is replaced by others that are accounted for. Where
nothing that waits can do anything, a definition made in an earlier state says nothing new.
-/

namespace CycleCheck.Propagation

variable {sig : Signature} {s s' s'' s₂ : State} {W W' W'' W₂ work : List Term} {p q r : Progress}
  {a b c t target other : Term} {ts us : List Term} {k : Kind} {v : Value} {f : Definition}
  {indices : List Numeral}

/-! ## Values in later states -/

/-- A well sorted state in which every known array is the root of its own name. -/
structure State.Sound (s : State) (sig : Signature) : Prop where
  kinds : s.WellKinded sig
  roots : ∀ (x : String) m, s.arrays[x]? = some m → m.root = x ∧ m.stores = []

theorem State.KeptBy.eval (h : s.KeptBy s') (hs : s.Sound sig) (hs' : s'.Sound sig)
    (ht : Tame sig t k) (hv : s.eval t = .ok v) (known : v.known = true) :
    s'.eval t = .ok v := by
  obtain ⟨v', hv', -⟩ := ht.exists_eval hs'.kinds
  obtain rfl := (State.eval_keptBy_and_evalAll h hs.kinds hs'.kinds).1 t k v v' ht.kind hv hv' known
  exact hv'

theorem State.Sound.root_eq (hs : s.Sound sig) {x : String} {m : Memory} {n d : Nat}
    (hx : (x, .array n d) ∈ sig) (hm : s.arrays[x]? = some m) :
    m = ⟨x, Int64.ofNat n, Int64.ofNat d, []⟩ := by
  obtain ⟨hroot, hstores⟩ := hs.roots x m hm
  obtain ⟨n', d', hx', hfit, -⟩ := hs.kinds.arrays x m hm
  cases hs.kinds.functional _ _ _ hx hx'
  obtain ⟨root, address, data, stores⟩ := m
  obtain ⟨rfl, rfl⟩ : root = x ∧ stores = [] := ⟨hroot, hstores⟩
  rw [show address = Int64.ofNat n from hfit.address, show data = Int64.ofNat d from hfit.data]

/-- The root that gets a cell is the root of the array symbol, and the cell is free. -/
theorem State.Sound.root_of_defines (hs : s.Sound sig) {x : String} {n d : Nat} {n' d' : Int64}
    {root : Memory} {i : UInt64} (hx : (x, .array n d) ∈ sig)
    (sort : s.sorts[x]? = some (.array n' d'))
    (rooted : s.arrays[x]? = none ∧ root = ⟨x, n', d', []⟩ ∨
      s.arrays[x]? = some root ∧ root.stores = [] ∧ s.cells[(root.root, i)]? = none) :
    root = ⟨x, Int64.ofNat n, Int64.ofNat d, []⟩ ∧ root.stores = [] ∧
      s.cells[(root.root, i)]? = none ∧ (∀ m, s.arrays[x]? = some m → m = root) ∧
        (root.root = x ∨ s.arrays[root.root]? = some root) := by
  obtain ⟨τ, hτ, hof⟩ := hs.kinds.declared _ _ hx
  cases sort.symm.trans hτ
  cases hof.eq_array
  refine ⟨?_, (hs.kinds.root_of_defines hx rooted).2⟩
  rcases rooted with ⟨-, rfl⟩ | ⟨hsome, -⟩
  · rfl
  · exact hs.root_eq hx hsome

/-- A word that fits its width is not changed by a cut. -/
theorem ofWord_eq_of_wordFits {u : UInt64} {n : Nat} (h : WordFits u n) :
    Value.ofWord u (Int64.ofNat n) = .bits u (Int64.ofNat n) := by
  have hcut : u &&& mask (Int64.ofNat n) = u :=
    UInt64.toNat_inj.1 ((toNat_cut h.1 u).trans (Nat.mod_eq_of_lt h.2))
  rw [Value.ofWord, hcut]

theorem State.eval_symbol_of_value {x : Symbol} {w : Int64} {u : UInt64}
    (sort : s.sorts[x.name]? = some (.bits w)) (hu : s.values[x.name]? = some u) :
    s.eval (.symbol x) = .ok (.ofWord u w) := by
  rw [State.eval, State.symbol, sort]
  simp only [hu]

/-- The value of a chosen cell comes from the array symbol and the cell. -/
theorem State.lookup_of_eval_select {x : Symbol}
    (h : s.eval (.app .select indices [.symbol x, t]) = .ok v) (known : v.known = true) :
    ∃ m i u, s.arrays[x.name]? = some m ∧ s.eval t = .ok i ∧ i.known = true ∧
      s.lookup m i.word = some u ∧ v = .ofWord u m.dataWidth := by
  have heval : s.eval (.app .select indices [.symbol x, t]) =
    s.evalAll [.symbol x, t] >>= s.applyOp .select indices := rfl
  rw [heval] at h
  obtain ⟨vals, hvals, h⟩ := exists_ok_of_bind h
  rw [State.evalAll] at hvals
  obtain ⟨va, hva, hvals⟩ := exists_ok_of_bind hvals
  rw [State.evalAll] at hvals
  obtain ⟨rest, hrest, hvals⟩ := exists_ok_of_bind hvals
  obtain ⟨i, hi, hrest⟩ := exists_ok_of_bind hrest
  cases hrest
  cases hvals
  change (if [va, i].all Value.known then s.strict .select indices [va, i] else .ok .unknown) =
    .ok v at h
  split_ifs at h with hall
  · simp only [List.all_cons, List.all_nil, Bool.and_true, Bool.and_eq_true] at hall
    cases va with
    | array m =>
      simp only [State.strict] at h
      split at h
      · next u hu =>
        cases h
        refine ⟨m, i, u, ?_, hi, hall.2, hu, rfl⟩
        rw [State.eval, State.symbol] at hva
        split at hva
        · cases hva
        · split at hva
          · next m' hm =>
            cases hva
            exact hm
          · cases hva
        · split at hva <;> cases hva
      · cases h
        cases known
    | _ => cases h
  · cases h
    cases known

theorem State.eval_select_of_lookup {x : Symbol} {n d : Int64} {m : Memory} {i : Value} {u : UInt64}
    (sort : s.sorts[x.name]? = some (.array n d)) (hm : s.arrays[x.name]? = some m)
    (hi : s.eval t = .ok i) (known : i.known = true) (hu : s.lookup m i.word = some u) :
    s.eval (.app .select indices [.symbol x, t]) = .ok (.ofWord u m.dataWidth) := by
  have heval : s.eval (.app .select indices [.symbol x, t]) =
    s.evalAll [.symbol x, t] >>= s.applyOp .select indices := rfl
  have hx : s.eval (.symbol x) = .ok (.array m) := by
    rw [State.eval, State.symbol, sort]
    simp only [hm]
  rw [heval, State.evalAll_pair hx hi]
  change (if [.array m, i].all Value.known then s.strict .select indices [.array m, i]
    else .ok .unknown) = _
  rw [if_pos (by simp [known, show (Value.array m).known = true from rfl])]
  simp only [State.strict, hu]

/-! ## Assertions that are accounted for -/

/-- Settling looks at the value of such a term: it is neither split nor replaced. -/
structure Judged (t : Term) : Prop where
  notAnd : ∀ indices args, t = .app .and indices args → False
  notImplies : ∀ indices a c, t = .app .implies indices [a, c] → False

/-- What a state and waiting terms have to say about an assertion that was settled. -/
inductive State.Accounts (s : State) (W : List Term) : Term → Prop where
  | waiting {t : Term} (mem : t ∈ W) : s.Accounts W t
  | conjunction {indices : List Numeral} {args : List Term} (each : ∀ t ∈ args, s.Accounts W t) :
      s.Accounts W (.app .and indices args)
  | vacuous {indices : List Numeral} {a c : Term} {v : Value} (eval : s.eval a = .ok v)
      (known : v.known = true) (fails : v.truth = false) :
      s.Accounts W (.app .implies indices [a, c])
  | discharged {indices : List Numeral} {a c : Term} {v : Value} (eval : s.eval a = .ok v)
      (known : v.known = true) (holds : v.truth = true) (consequent : s.Accounts W c) :
      s.Accounts W (.app .implies indices [a, c])
  | holds {t : Term} (judged : Judged t) (eval : s.eval t = .ok (.bool true)) : s.Accounts W t

/-- A waiting term that settling leaves as it is. -/
inductive State.Idle (s : State) : Term → Prop where
  | implication {indices : List Numeral} {a c : Term} {v : Value} (eval : s.eval a = .ok v)
      (unknown : v.known = false) : s.Idle (.app .implies indices [a, c])
  | judged {t : Term} (judged : Judged t) (eval : s.eval t = .ok .unknown)
      (defines : ∀ indices a b, t = .app .eq indices [a, b] → s.define a b = .ok none) : s.Idle t

/-- Nothing that waits can do anything. -/
structure Stable (sig : Signature) (s : State) (W : List Term) : Prop where
  sound : s.Sound sig
  tame : ∀ t ∈ W, Tame sig t .truth
  idle : ∀ t ∈ W, s.Idle t

/-- A later state with what still waits in it. -/
structure Extends (s : State) (W : List Term) (s' : State) (W' : List Term) : Prop where
  kept : s.KeptBy s'
  accounted : ∀ t ∈ W, s'.Accounts W' t

theorem Extends.refl (s : State) (W : List Term) : Extends s W s W := ⟨.refl s, fun _ => .waiting⟩

/-- What was accounted for stays so. -/
theorem State.Accounts.later (h : s.Accounts W t) (ext : Extends s W s' W') (hs : s.Sound sig)
    (hs' : s'.Sound sig) (ht : Tame sig t .truth) : s'.Accounts W' t := by
  induction h with
  | waiting mem => exact ext.accounted _ mem
  | conjunction _ ih => exact .conjunction fun t hmem => ih t hmem (ht.of_and t hmem)
  | vacuous eval known fails =>
    exact .vacuous (ext.kept.eval hs hs' ht.of_implies.1 eval known) known fails
  | discharged eval known holds _ ih =>
    exact .discharged (ext.kept.eval hs hs' ht.of_implies.1 eval known) known holds
      (ih ht.of_implies.2)
  | holds judged eval => exact .holds judged (ext.kept.eval hs hs' ht eval rfl)

theorem Extends.trans (h : Extends s W s' W') (h' : Extends s' W' s'' W'') (hs' : s'.Sound sig)
    (hs'' : s''.Sound sig) (tame : ∀ t ∈ W, Tame sig t .truth) : Extends s W s'' W'' :=
  ⟨h.kept.trans h'.kept, fun t ht => (h.accounted t ht).later h' hs' hs'' (tame t ht)⟩

namespace Stable

theorem not_idle_and {args : List Term} : ¬ s.Idle (.app .and indices args) := by
  intro h
  cases h with
  | judged judged => exact judged.notAnd _ _ rfl

theorem accounts_and {args : List Term} (st : Stable sig s W)
    (h : s.Accounts W (.app .and indices args)) : ∀ t ∈ args, s.Accounts W t := by
  cases h with
  | waiting mem => exact absurd (st.idle _ mem) not_idle_and
  | conjunction each => exact each
  | holds judged => exact (judged.notAnd _ _ rfl).elim

/-- The consequent of an implication whose antecedent is true is accounted for. -/
theorem accounts_implies (st : Stable sig s W) (h : s.Accounts W (.app .implies indices [a, c]))
    (eval : s.eval a = .ok v) (known : v.known = true) (holds : v.truth = true) :
    s.Accounts W c := by
  cases h with
  | waiting mem =>
    cases st.idle _ mem with
    | implication eval' unknown =>
      cases eval.symm.trans eval'
      rw [known] at unknown
      cases unknown
    | judged judged => exact (judged.notImplies _ _ _ rfl).elim
  | vacuous eval' _ fails =>
    cases eval.symm.trans eval'
    rw [holds] at fails
    cases fails
  | discharged _ _ _ consequent => exact consequent
  | holds judged => exact (judged.notImplies _ _ _ rfl).elim

/-- A term with a value is not accounted for by waiting. -/
theorem eval_of_accounts (st : Stable sig s W) (judged : Judged t) (h : s.Accounts W t)
    (eval : s.eval t = .ok v) (known : v.known = true) : v = .bool true := by
  cases h with
  | waiting mem =>
    cases st.idle _ mem with
    | implication => exact (judged.notImplies _ _ _ rfl).elim
    | judged _ eval' =>
      cases eval.symm.trans eval'
      cases known
  | conjunction => exact (judged.notAnd _ _ rfl).elim
  | vacuous => exact (judged.notImplies _ _ _ rfl).elim
  | discharged => exact (judged.notImplies _ _ _ rfl).elim
  | holds _ eval' =>
    cases eval.symm.trans eval'
    rfl

end Stable

/-! ## Definitions -/

/-- Only words and cells are defined, as long as arrays are not compared. -/
theorem State.Defines.exists_bits (h : s.Defines target other f) (hs : s.Sound sig)
    (ht : Tame sig target k) (ho : Tame sig other k) (scalar : ∀ n d, k ≠ .array n d) :
    ∃ w u, k = .bits w ∧ s.eval other = .ok (.bits u (Int64.ofNat w)) ∧ WordFits u w := by
  cases h with
  | value _ _ eval | cell _ _ _ _ eval =>
    obtain ⟨n, rfl, rfl, hfit⟩ := State.eval_hasKind hs.kinds ho.kind ho.short eval
    exact ⟨n, _, rfl, eval, hfit⟩
  | array sort _ _ =>
    obtain ⟨τ, hτ, hof⟩ := hs.kinds.declared _ _ ht.kind
    cases sort.symm.trans hτ
    obtain ⟨n, d, rfl, -⟩ := hof
    exact (scalar n d rfl).elim

/-- Where an earlier definition is not made, both sides have a value already. -/
theorem State.Defines.exists_values (h : s.Defines target other f) (kept : s.KeptBy s₂)
    (hs : s.Sound sig) (hs₂ : s₂.Sound sig) (ht : Tame sig target k) (ho : Tame sig other k)
    (scalar : ∀ n d, k ≠ .array n d) (hnone : s₂.defineTerm target other = .ok none) :
    ∃ w v u, k = .bits w ∧ s₂.eval target = .ok v ∧ v.known = true ∧
      s₂.eval other = .ok u ∧ u.known = true := by
  obtain ⟨w, u, rfl, hu, -⟩ := h.exists_bits hs ht ho scalar
  have hother := kept.eval hs hs₂ ho hu rfl
  suffices hvalue : ∃ v, s₂.eval target = .ok v ∧ v.known = true by
    obtain ⟨v, hv, known⟩ := hvalue
    exact ⟨w, v, _, rfl, hv, known, hother, rfl⟩
  cases h with
  | @value x _ _ _ sort fresh eval =>
    obtain ⟨τ, hτ, hof⟩ := hs₂.kinds.declared _ _ ht.kind
    obtain rfl := hof.eq_bits
    change s₂.defineSymbol x.name other = .ok none at hnone
    rw [State.defineSymbol, hτ] at hnone
    cases hvalue : s₂.values[x.name]? with
    | some y => exact ⟨_, State.eval_symbol_of_value hτ hvalue, rfl⟩
    | none =>
      have hfree : s₂.values.contains x.name = false := by
        rw [Std.HashMap.contains_eq_isSome_getElem?, hvalue]
        rfl
      simp [hfree, hother, bind, Except.bind, pure, Except.pure] at hnone
  | array sort _ eval =>
    cases hu.symm.trans eval
  | @cell x _ index _ i y n d root sort rooted position known eval =>
    obtain ⟨n', d', hx, hi, hkind⟩ := ht.of_select
    cases hkind
    obtain ⟨τ, hτ, hof⟩ := hs₂.kinds.declared _ _ hx
    obtain rfl := hof.eq_array
    have hindex := kept.eval hs hs₂ hi position known
    have hroots : ¬ (s₂.arrays[x.name]?).any (!·.isRoot) = true := by
      intro hany
      obtain ⟨m, hm, hroot⟩ := (Option.any_eq_true _ _).1 hany
      simp [Memory.isRoot, (hs₂.roots _ _ hm).2] at hroot
    change s₂.defineSelect x.name index other = .ok none at hnone
    rw [State.defineSelect, hτ] at hnone
    simp only [if_neg hroots, hindex, bind, Except.bind, known] at hnone
    by_cases hcell : (s₂.arrays[x.name]?).any (fun m => (s₂.lookup m i.word).isSome) = true
    · obtain ⟨m, hm, hsome⟩ := (Option.any_eq_true _ _).1 hcell
      obtain ⟨z, hz⟩ := Option.isSome_iff_exists.1 hsome
      exact ⟨_, State.eval_select_of_lookup hτ hm hindex known hz, rfl⟩
    · simp [hcell, State.defineCell, hother, bind, Except.bind, pure, Except.pure] at hnone

/-- A definition whose equality holds in a later state says nothing new there. -/
theorem State.Defines.keptBy (h : s.Defines target other f) (kept : s.KeptBy s₂)
    (hs : s.Sound sig) (hs₂ : s₂.Sound sig) (ht : Tame sig target k) (ho : Tame sig other k)
    (scalar : ∀ n d, k ≠ .array n d) (htarget : s₂.eval target = s₂.eval other) :
    (s.add f).KeptBy s₂ := by
  obtain ⟨w, u, rfl, hu, hfit⟩ := h.exists_bits hs ht ho scalar
  have hother := htarget.trans (kept.eval hs hs₂ ho hu rfl)
  cases h with
  | @value x _ y _ sort fresh eval =>
    cases hu.symm.trans eval
    refine ⟨(forall_getElem?_insert (by simp [fresh])).2 ⟨?_, kept.values⟩, kept.arrays, kept.cells⟩
    obtain ⟨τ, hτ, hof⟩ := hs₂.kinds.declared _ _ ht.kind
    obtain rfl := hof.eq_bits
    cases hvalue : s₂.values[x.name]? with
    | none =>
      simp only [State.eval, State.symbol, hτ, hvalue] at hother
      cases hother
    | some z =>
      obtain ⟨n, hx, hz⟩ := hs₂.kinds.values _ _ hvalue
      cases hs₂.kinds.functional _ _ _ hx ht.kind
      rw [State.eval_symbol_of_value hτ hvalue, ofWord_eq_of_wordFits hz] at hother
      cases hother
      rfl
  | array sort _ eval =>
    cases hu.symm.trans eval
  | @cell x _ index _ i y n d root sort rooted position known eval =>
    cases hu.symm.trans eval
    obtain ⟨n', d', hx, hi, hkind⟩ := ht.of_select
    cases hkind
    obtain ⟨m, j, z, hm, hj, -, hz, hv⟩ := State.lookup_of_eval_select hother rfl
    cases (kept.eval hs hs₂ hi position known).symm.trans hj
    obtain rfl := hs₂.root_eq hx hm
    have hfit' := hs₂.kinds.wordFits_lookup ⟨hx, rfl, rfl, by simp⟩ hz
    rw [ofWord_eq_of_wordFits hfit'] at hv
    cases hv
    obtain ⟨hroot, -, hfree, hknown, -⟩ := hs.root_of_defines hx sort rooted
    subst hroot
    exact ⟨kept.values, (forall_getElem?_insert hknown).2 ⟨hm, kept.arrays⟩,
      (forall_getElem?_insert (by simp [hfree])).2 ⟨hz, kept.cells⟩⟩

/-- After a definition both sides of its equality have the same value. -/
theorem State.Defines.eval_add (h : s.Defines target other f) (hs : s.Sound sig)
    (hs' : (s.add f).Sound sig) (ht : Tame sig target k) (ho : Tame sig other k)
    (scalar : ∀ n d, k ≠ .array n d) :
    ∃ w u, (s.add f).eval target = .ok (.bits u w) ∧ (s.add f).eval other = .ok (.bits u w) := by
  obtain ⟨w, u, rfl, hu, hfit⟩ := h.exists_bits hs ht ho scalar
  have kept := h.keptBy_add hs.kinds ht.kind
  have hother := kept.eval hs hs' ho hu rfl
  refine ⟨Int64.ofNat w, u, ?_, hother⟩
  cases h with
  | @value x _ y _ sort fresh eval =>
    cases hu.symm.trans eval
    have hvalue : (s.add (.value x.name u)).values[x.name]? = some u := by simp [State.add]
    have heval := State.eval_symbol_of_value (s := s.add (.value x.name u)) sort hvalue
    rwa [ofWord_eq_of_wordFits hfit] at heval
  | array _ _ eval =>
    cases hu.symm.trans eval
  | @cell x indices index _ i y n d root sort rooted position known eval =>
    cases hu.symm.trans eval
    obtain ⟨n', d', hx, hi, hkind⟩ := ht.of_select
    cases hkind
    obtain ⟨hroot, -⟩ := hs.root_of_defines hx sort rooted
    have hindex := kept.eval hs hs' hi position known
    have harray : (s.add (.cell x.name root i.word u)).arrays[x.name]? = some root := by
      simp [State.add]
    have hcell : (s.add (.cell x.name root i.word u)).lookup root i.word = some u := by
      simp [State.lookup, State.add, hroot]
    have heval : (s.add (.cell x.name root i.word u)).eval
        (.app .select indices [.symbol x, index]) = .ok (.ofWord u root.dataWidth) :=
      State.eval_select_of_lookup sort harray hindex known hcell
    rwa [show root.dataWidth = Int64.ofNat w by rw [hroot], ofWord_eq_of_wordFits hfit] at heval

/-- Definitions by tame equalities keep a state sound. -/
theorem State.Sound.add (hs : s.Sound sig) (ha : Tame sig a k) (hb : Tame sig b k)
    (scalar : ∀ n d, k ≠ .array n d) (hf : s.define a b = .ok (some f)) :
    (s.add f).Sound sig := by
  refine ⟨(State.define_spec hf hs.kinds ha.kind hb.kind ha.short hb.short).1, ?_⟩
  have hroots : ∀ {target other : Term}, s.Defines target other f → Tame sig target k →
      Tame sig other k → ∀ (x : String) m, (s.add f).arrays[x]? = some m →
        m.root = x ∧ m.stores = [] := by
    intro target other h ht ho
    obtain ⟨w, u, rfl, hu, -⟩ := h.exists_bits hs ht ho scalar
    cases h with
    | value => exact hs.roots
    | array _ _ eval => cases hu.symm.trans eval
    | cell sort rooted _ _ _ =>
      obtain ⟨n, d, hx, -⟩ := ht.of_select
      obtain ⟨hroot, -, -, hknown, -⟩ := hs.root_of_defines hx sort rooted
      exact (forall_getElem?_insert hknown).2 ⟨⟨by rw [hroot], by rw [hroot]⟩, hs.roots⟩
  rcases State.defines_of_define hf with h | h
  · exact hroots h ha hb
  · exact hroots h hb ha

/-! ## Equalities -/

theorem chainEqual_pair (v w : Value) : chainEqual [v, w] = v.equal w := by
  rw [chainEqual]
  cases v.equal w <;> rfl

theorem State.eval_equality {va vb : Value} (ha : s.eval a = .ok va) (hb : s.eval b = .ok vb) :
    s.eval (.app .eq indices [a, b]) = .ok (va.equal vb).value := by
  have heval : s.eval (.app .eq indices [a, b]) =
    s.evalAll [a, b] >>= s.applyOp .eq indices := rfl
  rw [heval, State.evalAll_pair ha hb, ← chainEqual_pair]
  rfl

theorem judged_eq : Judged (.app .eq indices [a, b]) := ⟨nofun, nofun⟩

/-- What is not defined by an equality is defined by neither side. -/
theorem State.defineTerm_of_define (h : s.define a b = .ok none) :
    s.defineTerm a b = .ok none ∧ s.defineTerm b a = .ok none := by
  unfold State.define at h
  obtain ⟨r, hr, h⟩ := exists_ok_of_bind h
  cases r with
  | some d => cases h
  | none => exact ⟨hr, h⟩

/-- After a definition its equality holds. -/
theorem State.eval_add_of_define (hs : s.Sound sig) (ha : Tame sig a k) (hb : Tame sig b k)
    (scalar : ∀ n d, k ≠ .array n d) (hf : s.define a b = .ok (some f)) :
    s.KeptBy (s.add f) ∧ (s.add f).eval (.app .eq indices [a, b]) = .ok (.bool true) := by
  have hs' := hs.add ha hb scalar hf
  have hself : ∀ u w, (Value.bits u w).equal (.bits u w) = .yes := fun u w =>
    (congrArg Tri.ofBool (beq_self_eq_true u) :)
  rcases State.defines_of_define hf with h | h
  · obtain ⟨w, u, hleft, hright⟩ := h.eval_add hs hs' ha hb scalar
    exact ⟨h.keptBy_add hs.kinds ha.kind, by rw [State.eval_equality hleft hright, hself]; rfl⟩
  · obtain ⟨w, u, hright, hleft⟩ := h.eval_add hs hs' hb ha scalar
    exact ⟨h.keptBy_add hs.kinds hb.kind, by rw [State.eval_equality hleft hright, hself]; rfl⟩

/-- Where nothing can be done and an equality is accounted for, an earlier state that is kept may
use it as a definition. -/
theorem Stable.add_keptBy (st : Stable sig s₂ W₂) (kept : s.KeptBy s₂) (hs : s.Sound sig)
    (ht : Tame sig (.app .eq indices [a, b]) .truth) (hf : s.define a b = .ok (some f))
    (acc : s₂.Accounts W₂ (.app .eq indices [a, b])) : (s.add f).KeptBy s₂ := by
  obtain ⟨k, ha, hb, scalar⟩ := ht.of_eq
  obtain ⟨va, hva, hka⟩ := ha.exists_eval st.sound.kinds
  obtain ⟨vb, hvb, hkb⟩ := hb.exists_eval st.sound.kinds
  have heval : s₂.eval (.app .eq indices [a, b]) = .ok (va.equal vb).value :=
    State.eval_equality hva hvb
  have hsame : va = vb := by
    cases acc with
    | holds _ eval =>
      have htrue := Except.ok.inj (heval.symm.trans eval)
      refine Value.eq_of_equal hka.hasWidth hkb.hasWidth ?_
      cases hequal : va.equal vb <;> rw [hequal] at htrue <;> first | rfl | cases htrue
    | waiting mem =>
      cases st.idle _ mem with
      | judged _ eval defines =>
        obtain ⟨hleft, hright⟩ := State.defineTerm_of_define (defines _ _ _ rfl)
        have hunknown := Except.ok.inj (heval.symm.trans eval)
        obtain ⟨w, rfl, known⟩ : ∃ w, k = .bits w ∧ va.known = true ∧ vb.known = true := by
          rcases State.defines_of_define hf with h | h
          · obtain ⟨w, v, u, rfl, hv, hkv, hu, hku⟩ :=
              h.exists_values kept hs st.sound ha hb scalar hleft
            cases hv.symm.trans hva
            cases hu.symm.trans hvb
            exact ⟨w, rfl, hkv, hku⟩
          · obtain ⟨w, v, u, rfl, hv, hkv, hu, hku⟩ :=
              h.exists_values kept hs st.sound hb ha scalar hright
            cases hv.symm.trans hvb
            cases hu.symm.trans hva
            exact ⟨w, rfl, hku, hkv⟩
        have hdecided := chainEqual_pair_known hka hkb known.1 known.2
        rw [chainEqual_pair, hunknown] at hdecided
        cases hdecided
  rcases State.defines_of_define hf with h | h
  · exact h.keptBy kept hs st.sound ha hb scalar (by rw [hva, hvb, hsame])
  · exact h.keptBy kept hs st.sound hb ha scalar (by rw [hva, hvb, hsame])

end CycleCheck.Propagation
