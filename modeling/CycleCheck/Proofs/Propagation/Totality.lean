import CycleCheck.Proofs.Propagation.Soundness
import CycleCheck.Proofs.Term.Clause

/-!
Propagation does not fail on clauses. The value of a term in scope is never an error, and it is
known if the symbols in scope are; so a formula of clauses is found to be satisfiable, found to be
unsatisfiable, or left undetermined.
-/

namespace CycleCheck.Propagation

variable {sig : Signature} {Γ : Scope} {s : State}

/-! ## Values that are known -/

/-- A value of a sort is known, and so are all cells of an array. -/
def State.Solid (s : State) (v : Value) : Kind → Prop
  | .array a _ => ∃ m, v = .array m ∧ ∀ i : UInt64, i.toNat < 2 ^ a → (s.lookup m i).isSome
  | _ => v.known = true

/-- The value of a symbol is known. -/
def State.Knows (s : State) (x : String) (k : Kind) : Prop :=
  ∃ v, s.symbol x = .ok v ∧ s.Solid v k

theorem State.Solid.known {v : Value} {k : Kind} (h : s.Solid v k) : v.known = true := by
  cases k with
  | truth | bits => exact h
  | array a d =>
    obtain ⟨m, rfl, -⟩ := h
    rfl

theorem State.exists_symbol (wk : s.WellKinded sig) {x : String} {k : Kind} (hx : (x, k) ∈ sig) :
    ∃ v, s.symbol x = .ok v := by
  obtain ⟨τ, hτ, -⟩ := wk.declared x k hx
  unfold State.symbol
  rw [hτ]
  cases τ with
  | bits w => cases s.values[x]? <;> exact ⟨_, rfl⟩
  | array a d => cases s.arrays[x]? <;> exact ⟨_, rfl⟩

/-! ## Evaluation of built terms -/

section Eval

variable {a b c i t : Term} {ts : List Term} {va vb vc vi : Value} {vals : List Value}

theorem State.eval_word {w : Nat} (narrow : w ≤ 64) (n : Nat) :
    ∃ v, s.eval (.word w n) = .ok (.ofWord v (Int64.ofNat w)) := by
  unfold Term.word
  split_ifs with hw
  · have hwidth : w / 4 * 4 = w := by omega
    rw [State.eval, constant, Text.length_fixedWidth, hwidth, if_neg (by omega)]
    exact ⟨_, rfl⟩
  · rw [State.eval, constant, Text.length_fixedWidth, if_neg (by omega)]
    exact ⟨_, rfl⟩

theorem State.eval_bit (x : Bool) : ∃ v, s.eval (.bit x) = .ok (.ofWord v 1) := by
  cases x <;> exact ⟨_, rfl⟩

theorem State.evalAll_cons (ha : s.eval a = .ok va) (hts : s.evalAll ts = .ok vals) :
    s.evalAll (a :: ts) = .ok (va :: vals) := by
  rw [State.evalAll, ha, hts]
  rfl

theorem State.evalAll_pair (ha : s.eval a = .ok va) (hb : s.eval b = .ok vb) :
    s.evalAll [a, b] = .ok [va, vb] :=
  State.evalAll_cons ha (State.evalAll_cons hb rfl)

/-- The value of an equality of any two terms. -/
theorem State.eval_eq (ha : s.eval a = .ok va) (hb : s.eval b = .ok vb) :
    s.eval (.eq a b) = .ok (chainEqual [va, vb]).value := by
  have heval : s.eval (.eq a b) = s.evalAll [a, b] >>= s.applyOp .eq [] := rfl
  rw [heval, State.evalAll_pair ha hb]
  rfl

theorem State.eval_all (hts : s.evalAll ts = .ok vals) :
    ∃ v, s.eval (.all ts) = .ok v ∧ (v.known = true ∨ ∃ u ∈ vals, u.known = false) := by
  match ts, hts with
  | [], _ => exact ⟨_, rfl, .inl rfl⟩
  | [t], hts =>
    rw [State.evalAll] at hts
    obtain ⟨v, hv, hts⟩ := exists_ok_of_bind hts
    cases hts
    refine ⟨v, hv, ?_⟩
    cases hknown : v.known with
    | true => exact .inl rfl
    | false => exact .inr ⟨v, List.mem_singleton_self v, hknown⟩
  | t :: u :: rest, hts =>
    have heval : s.eval (.all (t :: u :: rest)) =
      s.evalAll (t :: u :: rest) >>= s.applyOp .and [] := rfl
    refine ⟨conjunction vals, by rw [heval, hts]; rfl, ?_⟩
    unfold conjunction
    split_ifs with hfalse hall
    · exact .inl rfl
    · exact .inl rfl
    · simp only [List.all_eq_true, not_forall, Bool.not_eq_true] at hall
      obtain ⟨v, hv, hunknown⟩ := hall
      exact .inr ⟨v, hv, hunknown⟩

/-- An operator that needs all its arguments: its value is known if they are and if the operator
gives a known value. -/
theorem State.eval_strict {op : Op} {indices : List Numeral} {args : List Term} {Q : Prop}
    {k : Kind} (heval : s.eval (.app op indices args) = s.evalAll args >>= s.applyOp op indices)
    (hop : s.applyOp op indices vals =
      if vals.all Value.known then s.strict op indices vals else .ok .unknown)
    (hargs : s.evalAll args = .ok vals) (hknown : Q → vals.all Value.known = true)
    (hstrict : vals.all Value.known = true →
      ∃ v, s.strict op indices vals = .ok v ∧ (Q → s.Solid v k)) :
    ∃ v, s.eval (.app op indices args) = .ok v ∧ (Q → s.Solid v k) := by
  rw [heval, hargs]
  change ∃ v, s.applyOp op indices vals = .ok v ∧ _
  rw [hop]
  by_cases hall : vals.all Value.known = true
  · rw [if_pos hall]
    exact hstrict hall
  · rw [if_neg hall]
    exact ⟨_, rfl, fun hQ => absurd (hknown hQ) hall⟩

theorem chainEqual_pair_known {w : Nat} (ha : va.HasKind sig (.bits w))
    (hb : vb.HasKind sig (.bits w)) (hka : va.known = true) (hkb : vb.known = true) :
    (chainEqual [va, vb]).value.known = true := by
  obtain ⟨x, rfl, -⟩ := ha.exists_bits hka
  obtain ⟨y, rfl, -⟩ := hb.exists_bits hkb
  have hequal : (Value.bits x (Int64.ofNat w)).equal (.bits y (Int64.ofNat w)) =
      Tri.ofBool (x == y) := rfl
  rw [chainEqual, hequal]
  cases x == y <;> rfl

theorem not_gt_of_le {v w : Nat} (h : v + w ≤ 64) : ¬ Int64.ofNat v + Int64.ofNat w > 64 := by
  have h64 : (64 : Int64).toInt = 64 := rfl
  rw [← Int64.ofNat_add, gt_iff_lt, Int64.lt_iff_toInt_lt, h64,
    Int64.toInt_ofNat_of_lt (by omega)]
  omega

theorem State.lookup_store (m : Memory) (i v j : UInt64) :
    s.lookup (m.store i v) j = if i = j then some v else s.lookup m j := by
  unfold State.lookup Memory.store
  rw [List.find?_cons]
  by_cases h : i = j
  · simp [h]
  · have hne : (i == j) = false := beq_eq_false_iff_ne.2 h
    simp [h, hne]

theorem State.strict_select (m : Memory) (x : UInt64) (w : Int64) :
    s.strict .select [] [.array m, .bits x w] =
      match s.lookup m x with
      | some v => .ok (.ofWord v m.dataWidth)
      | none => .ok .unknown := rfl

/-! ### Operators on words and arrays

Each has a value if its arguments have values of the right sorts. Under a condition `Q` on which the
values of the arguments are known, the value is known too. -/

variable {Q : Prop} {k : Kind}

theorem State.exists_evalAll (h : ∀ t ∈ ts, ∃ v, s.eval t = .ok v ∧ (Q → s.Solid v k)) :
    ∃ vals, s.evalAll ts = .ok vals ∧ (Q → ∀ u ∈ vals, u.known = true) := by
  induction ts with
  | nil => exact ⟨[], rfl, by simp⟩
  | cons t rest ih =>
    obtain ⟨⟨v, hv, hsolid⟩, hrest⟩ := List.forall_mem_cons.1 h
    obtain ⟨vals, hvals, hknown⟩ := ih hrest
    refine ⟨v :: vals, State.evalAll_cons hv hvals, fun hQ => ?_⟩
    exact List.forall_mem_cons.2 ⟨(hsolid hQ).known, hknown hQ⟩

theorem State.exists_eval_concat {v w : Nat} (narrow : v + w ≤ 64) (ha : s.eval a = .ok va)
    (hb : s.eval b = .ok vb) (hka : va.HasKind sig (.bits v)) (hkb : vb.HasKind sig (.bits w))
    (hsa : Q → va.known = true) (hsb : Q → vb.known = true) :
    ∃ u, s.eval (.concat a b) = .ok u ∧ (Q → s.Solid u (.bits (v + w))) := by
  refine State.eval_strict rfl rfl (State.evalAll_pair ha hb)
    (fun hQ => by simp [hsa hQ, hsb hQ]) fun hall => ?_
  simp only [List.all_cons, List.all_nil, Bool.and_true, Bool.and_eq_true] at hall
  obtain ⟨x, rfl, -⟩ := hka.exists_bits hall.1
  obtain ⟨y, rfl, -⟩ := hkb.exists_bits hall.2
  rw [State.strict_concat, if_neg (not_gt_of_le narrow)]
  exact ⟨_, rfl, fun _ => rfl⟩

theorem State.exists_eval_zeroExtend {n w : Nat} (narrow : w + n ≤ 64) (ha : s.eval a = .ok va)
    (hka : va.HasKind sig (.bits w)) (hsa : Q → va.known = true) :
    ∃ u, s.eval (.zeroExtend n a) = .ok u ∧ (Q → s.Solid u (.bits (w + n))) := by
  refine State.eval_strict rfl rfl (State.evalAll_cons ha rfl) (fun hQ => by simp [hsa hQ])
    fun hall => ?_
  simp only [List.all_cons, List.all_nil, Bool.and_true] at hall
  obtain ⟨x, rfl, -⟩ := hka.exists_bits hall
  have hn : n.toUInt64.toNat = n := by
    simpa using Nat.lt_of_le_of_lt (show n ≤ 64 by omega) (by decide : 64 < 2 ^ 64)
  rw [State.strict_zeroExtend, indexInt_eq, hn, if_neg (not_gt_of_le narrow)]
  exact ⟨_, rfl, fun _ => rfl⟩

theorem State.exists_eval_select {n d : Nat} (ha : s.eval a = .ok va) (hi : s.eval i = .ok vi)
    (hka : va.HasKind sig (.array n d)) (hki : vi.HasKind sig (.bits n))
    (hsa : Q → s.Solid va (.array n d)) (hsi : Q → vi.known = true) :
    ∃ u, s.eval (.select a i) = .ok u ∧ (Q → s.Solid u (.bits d)) := by
  refine State.eval_strict rfl rfl (State.evalAll_pair ha hi)
    (fun hQ => by simp [(hsa hQ).known, hsi hQ]) fun hall => ?_
  simp only [List.all_cons, List.all_nil, Bool.and_true, Bool.and_eq_true] at hall
  obtain ⟨m, rfl, -⟩ := hka.exists_array hall.1
  obtain ⟨x, rfl, hx⟩ := hki.exists_bits hall.2
  rw [State.strict_select]
  cases hcell : s.lookup m x with
  | some v => exact ⟨_, rfl, fun _ => rfl⟩
  | none =>
    refine ⟨_, rfl, fun hQ => ?_⟩
    obtain ⟨_, ⟨⟩, hfull⟩ := hsa hQ
    have hsome := hfull x hx.2
    rw [hcell] at hsome
    cases hsome

theorem State.exists_eval_store {n d : Nat} (ha : s.eval a = .ok va) (hi : s.eval i = .ok vi)
    (hc : s.eval c = .ok vc) (hka : va.HasKind sig (.array n d))
    (hsa : Q → s.Solid va (.array n d)) (hsi : Q → vi.known = true) (hsc : Q → vc.known = true) :
    ∃ u, s.eval (.store a i c) = .ok u ∧ (Q → s.Solid u (.array n d)) := by
  refine State.eval_strict rfl rfl (State.evalAll_cons ha (State.evalAll_pair hi hc))
    (fun hQ => by simp [(hsa hQ).known, hsi hQ, hsc hQ]) fun hall => ?_
  simp only [List.all_cons, List.all_nil, Bool.and_true, Bool.and_eq_true] at hall
  obtain ⟨m, rfl, -⟩ := hka.exists_array hall.1
  refine ⟨_, rfl, fun hQ => ⟨_, rfl, fun j hj => ?_⟩⟩
  obtain ⟨_, ⟨⟩, hfull⟩ := hsa hQ
  rw [State.lookup_store]
  split_ifs
  · rfl
  · exact hfull j hj

end Eval

/-- The value of a term in scope is not an error, and it is known if all symbols in scope are. -/
theorem State.exists_eval (wk : s.WellKinded sig) (declared : ∀ x k, Γ x k → (x, k) ∈ sig)
    {t : Term} {k : Kind} (h : t.Evaluable Γ k) :
    ∃ v, s.eval t = .ok v ∧ ((∀ x k, Γ x k → s.Knows x k) → s.Solid v k) := by
  have hkind : ∀ {u : Term} {j : Kind} {v : Value}, u.Evaluable Γ j → s.eval u = .ok v →
      v.HasKind sig j := fun hu hv =>
    State.eval_hasKind wk (hu.proper declared).kind ((hu.proper declared).short _ (by decide)) hv
  induction h with
  | @symbol x k inScope =>
    obtain ⟨v, hv⟩ := State.exists_symbol wk (declared _ _ inScope)
    refine ⟨v, hv, fun hknows => ?_⟩
    obtain ⟨v', hv', hsolid⟩ := hknows _ _ inScope
    cases hv.symm.trans hv'
    exact hsolid
  | word _ narrow _ =>
    obtain ⟨v, hv⟩ := State.eval_word (s := s) narrow _
    exact ⟨_, hv, fun _ => rfl⟩
  | bit b =>
    obtain ⟨v, hv⟩ := State.eval_bit (s := s) b
    exact ⟨_, hv, fun _ => rfl⟩
  | all _ ih =>
    obtain ⟨vals, hvals, hknown⟩ := State.exists_evalAll ih
    obtain ⟨v, hv, hcases⟩ := State.eval_all hvals
    refine ⟨v, hv, fun hQ => ?_⟩
    rcases hcases with hv | ⟨u, hu, hunknown⟩
    · exact hv
    · rw [hknown hQ u hu] at hunknown
      cases hunknown
  | not _ ih =>
    obtain ⟨v, hv, hsolid⟩ := ih
    exact State.eval_strict rfl rfl (State.evalAll_cons hv rfl)
      (fun hQ => by simp [(hsolid hQ).known]) fun _ => ⟨_, rfl, fun _ => rfl⟩
  | eq ha hb iha ihb =>
    obtain ⟨va, hva, hsa⟩ := iha
    obtain ⟨vb, hvb, hsb⟩ := ihb
    exact ⟨_, State.eval_eq hva hvb, fun hQ => chainEqual_pair_known (hkind ha hva)
      (hkind hb hvb) (hsa hQ).known (hsb hQ).known⟩
  | uge _ _ iha ihb | add _ _ iha ihb | sub _ _ iha ihb | bitAnd _ _ iha ihb =>
    obtain ⟨va, hva, hsa⟩ := iha
    obtain ⟨vb, hvb, hsb⟩ := ihb
    exact State.eval_strict rfl rfl (State.evalAll_pair hva hvb)
      (fun hQ => by simp [(hsa hQ).known, (hsb hQ).known]) fun _ => ⟨_, rfl, fun _ => rfl⟩
  | ite _ _ _ ihc iha ihb =>
    obtain ⟨vc, hvc, hsc⟩ := ihc
    obtain ⟨va, hva, hsa⟩ := iha
    obtain ⟨vb, hvb, hsb⟩ := ihb
    cases hknown : vc.known with
    | true =>
      rw [Term.ite, State.eval_ite_of_known hvc hknown]
      cases vc.truth with
      | true => exact ⟨va, hva, hsa⟩
      | false => exact ⟨vb, hvb, hsb⟩
    | false =>
      rw [Term.ite, State.eval_ite_of_unknown hvc hknown, hva, hvb]
      refine ⟨choice va vb, rfl, fun hQ => ?_⟩
      rw [(hsc hQ).known] at hknown
      cases hknown
  | concat narrow ha hb iha ihb =>
    obtain ⟨va, hva, hsa⟩ := iha
    obtain ⟨vb, hvb, hsb⟩ := ihb
    exact State.exists_eval_concat narrow hva hvb (hkind ha hva) (hkind hb hvb)
      (fun hQ => (hsa hQ).known) fun hQ => (hsb hQ).known
  | extract _ _ _ _ ih =>
    obtain ⟨v, hv, hsolid⟩ := ih
    exact State.eval_strict rfl rfl (State.evalAll_cons hv rfl)
      (fun hQ => by simp [(hsolid hQ).known]) fun _ => ⟨_, rfl, fun _ => rfl⟩
  | zeroExtend narrow ha ih =>
    obtain ⟨va, hva, hsa⟩ := ih
    exact State.exists_eval_zeroExtend narrow hva (hkind ha hva) fun hQ => (hsa hQ).known
  | select ha hi iha ihi =>
    obtain ⟨va, hva, hsa⟩ := iha
    obtain ⟨vi, hvi, hsi⟩ := ihi
    exact State.exists_eval_select hva hvi (hkind ha hva) (hkind hi hvi) hsa
      fun hQ => (hsi hQ).known
  | store ha hi hv iha ihi ihv =>
    obtain ⟨va, hva, hsa⟩ := iha
    obtain ⟨vi, hvi, hsi⟩ := ihi
    obtain ⟨vv, hvv, hsv⟩ := ihv
    exact State.exists_eval_store hva hvi hvv (hkind ha hva) hsa (fun hQ => (hsi hQ).known)
      fun hQ => (hsv hQ).known

/-- The value of a term in scope, with its sort. -/
theorem State.exists_eval_hasKind (wk : s.WellKinded sig)
    (declared : ∀ x k, Γ x k → (x, k) ∈ sig) {t : Term} {k : Kind} (h : t.Evaluable Γ k) :
    ∃ v, s.eval t = .ok v ∧ v.HasKind sig k := by
  obtain ⟨v, hv, -⟩ := State.exists_eval wk declared h
  have hproper := h.proper declared
  exact ⟨v, hv, State.eval_hasKind wk hproper.kind (hproper.short _ (by decide)) hv⟩

/-! ## Definitions -/

/-- Defining a symbol by a term of its sort is not an error. -/
theorem State.exists_defineSymbol (wk : s.WellKinded sig) {x : String} {k : Kind}
    (hx : (x, k) ∈ sig) {other : Term} {v : Value} (hv : s.eval other = .ok v)
    (hkind : v.HasKind sig k) : ∃ d, s.defineSymbol x other = .ok d := by
  obtain ⟨τ, hτ, hof⟩ := wk.declared x k hx
  unfold State.defineSymbol
  rw [hτ]
  cases τ with
  | array a d =>
    obtain ⟨m, n, rfl, -⟩ := hof
    change ∃ r, (if s.arrays.contains x then Except.ok none else _) = _
    split_ifs
    · exact ⟨none, rfl⟩
    · rw [hv]
      cases v with
      | unknown => exact ⟨none, rfl⟩
      | array memory => exact ⟨_, rfl⟩
      | bool b => cases hkind
      | bits y w =>
        obtain ⟨_, h, -⟩ := hkind
        cases h
  | bits w =>
    obtain ⟨n, rfl, rfl⟩ := hof
    change ∃ r, (if s.values.contains x then Except.ok none else _) = _
    split_ifs
    · exact ⟨none, rfl⟩
    · rw [hv]
      cases v with
      | unknown => exact ⟨none, rfl⟩
      | bits y w =>
        obtain ⟨_, ⟨⟩, rfl, -⟩ := hkind
        exact ⟨some (.value x y), if_pos rfl⟩
      | bool b => cases hkind
      | array memory =>
        obtain ⟨_, _, h, -⟩ := hkind
        cases h

/-- Defining a cell by a term of its sort is not an error. -/
theorem State.exists_defineSelect (wk : s.WellKinded sig) {x : String} {a d : Nat}
    (hx : (x, .array a d) ∈ sig) {index other : Term} {i v : Value} (hi : s.eval index = .ok i)
    (hv : s.eval other = .ok v) (hkind : v.HasKind sig (.bits d)) :
    ∃ r, s.defineSelect x index other = .ok r := by
  obtain ⟨τ, hτ, hof⟩ := wk.declared x _ hx
  cases τ with
  | bits w =>
    obtain ⟨_, h, -⟩ := hof
    cases h
  | array a' d' =>
    obtain ⟨_, _, ⟨⟩, rfl, rfl⟩ := hof
    have hcell : ∃ r, s.defineCell x (Int64.ofNat a) (Int64.ofNat d) i.word other = .ok r := by
      unfold State.defineCell
      rw [hv]
      cases v with
      | unknown => exact ⟨none, rfl⟩
      | bits y w =>
        obtain ⟨_, ⟨⟩, rfl, -⟩ := hkind
        exact ⟨_, if_pos rfl⟩
      | bool b => cases hkind
      | array memory =>
        obtain ⟨_, _, h, -⟩ := hkind
        cases h
    unfold State.defineSelect
    rw [hτ]
    change ∃ r, (if (s.arrays[x]?).any (!·.isRoot) then Except.ok none else _) = _
    split_ifs
    · exact ⟨none, rfl⟩
    · rw [hi]
      change ∃ r, (if !i.known then Except.ok none else _) = _
      split_ifs
      · exact ⟨none, rfl⟩
      · exact ⟨none, rfl⟩
      · exact hcell

theorem State.exists_define (wk : s.WellKinded sig) (declared : ∀ x k, Γ x k → (x, k) ∈ sig)
    {a b : Term} {k : Kind} (ha : a.Evaluable Γ k) (hb : b.Evaluable Γ k) :
    ∃ d, s.define a b = .ok d := by
  have hterm : ∀ {target other : Term}, target.Evaluable Γ k → other.Evaluable Γ k →
      ∃ d, s.defineTerm target other = .ok d := by
    intro target other ht ho
    obtain ⟨v, hv, hkind⟩ := State.exists_eval_hasKind wk declared ho
    unfold State.defineTerm
    split
    · exact State.exists_defineSymbol wk (ht.proper declared).kind hv hkind
    · obtain ⟨n, d, hx, hi, rfl⟩ := ht.of_select
      obtain ⟨i, hi, -⟩ := State.exists_eval_hasKind wk declared hi
      exact State.exists_defineSelect wk (hx.proper declared).kind hi hv hkind
    · exact ⟨none, rfl⟩
  obtain ⟨d, hd⟩ := hterm ha hb
  obtain ⟨d', hd'⟩ := hterm hb ha
  unfold State.define
  rw [hd]
  cases d with
  | some d => exact ⟨some d, rfl⟩
  | none => exact ⟨d', hd'⟩

/-! ## Settling -/

/-- The state is well sorted and what is pending are clauses. -/
structure Progress.Safe (sig : Signature) (Γ : Scope) (p : Progress) : Prop where
  state : p.state.WellKinded sig
  pending : ∀ t ∈ p.pending.toList, Clause Γ t

/-- Settling goes on or finds a contradiction. -/
def Progress.Proceeds (sig : Signature) (Γ : Scope) : Except Halt Progress → Prop
  | .ok q => q.Safe sig Γ
  | .error (.contradiction _) => True
  | .error (.failed _) => False

variable {p : Progress}

theorem Progress.Proceeds.bind {x : Except Halt Progress} {f : Progress → Except Halt Progress}
    (hx : Progress.Proceeds sig Γ x)
    (hf : ∀ q : Progress, q.Safe sig Γ → Progress.Proceeds sig Γ (f q)) :
    Progress.Proceeds sig Γ (x >>= f) := by
  match x, hx with
  | .ok q, hq => exact hf q hq
  | .error (.contradiction _), _ => trivial

theorem Progress.Safe.postpone (hp : p.Safe sig Γ) {t : Term} (ht : Clause Γ t) :
    (p.postpone t).Safe sig Γ := by
  refine ⟨hp.state, fun u hu => ?_⟩
  simp only [Progress.postpone, Array.toList_push, List.mem_append, List.mem_singleton] at hu
  rcases hu with hu | rfl
  · exact hp.pending u hu
  · exact ht

theorem Progress.Safe.judge (hp : p.Safe sig Γ) {t : Term} (ht : Clause Γ t) {v : Value}
    (hv : p.state.eval t = .ok v) (hkind : v.HasKind sig .truth) :
    Progress.Proceeds sig Γ (p.judge t) := by
  unfold Progress.judge
  rw [hv]
  cases v with
  | unknown => exact hp.postpone ht
  | bool b =>
    cases b with
    | true => exact hp
    | false => trivial
  | bits y w =>
    obtain ⟨_, h, -⟩ := hkind
    cases h
  | array m =>
    obtain ⟨_, _, h, -⟩ := hkind
    cases h

theorem Progress.Safe.equate (hp : p.Safe sig Γ) (declared : ∀ x k, Γ x k → (x, k) ∈ sig)
    {a b : Term} {k : Kind} (ha : a.Evaluable Γ k) (hb : b.Evaluable Γ k) :
    Progress.Proceeds sig Γ (p.equate (.eq a b) a b) := by
  obtain ⟨d, hd⟩ := State.exists_define hp.state declared ha hb
  obtain ⟨va, hva, -⟩ := State.exists_eval_hasKind hp.state declared ha
  obtain ⟨vb, hvb, -⟩ := State.exists_eval_hasKind hp.state declared hb
  have hpa := ha.proper declared
  have hpb := hb.proper declared
  unfold Progress.equate
  rw [hd]
  cases d with
  | some d =>
    exact ⟨(State.define_spec hd hp.state hpa.kind hpb.kind (hpa.short _ (by decide))
      (hpb.short _ (by decide))).1, hp.pending⟩
  | none =>
    exact hp.judge (.eq ha hb) (State.eval_eq hva hvb) (Tri.hasKind_value _)

/-- A conjunction of any number of terms is settled term by term. -/
theorem Progress.settle_all (p : Progress) (ts : List Term) :
    p.settle (.all ts) = p.settleAll ts := by
  match ts with
  | [] => simp [Term.all, Progress.settleAll, Progress.settle, Progress.judge, State.eval]
  | [t] =>
    rw [Progress.settleAll, Term.all]
    cases p.settle t with
    | error e => rfl
    | ok q =>
      change _ = q.settleAll []
      rw [Progress.settleAll]
  | t :: u :: rest => rw [Term.all.eq_3 _ (by simp) (by simp), Progress.settle]

/-- Settling a clause does not fail. -/
theorem Progress.Safe.settle (hp : p.Safe sig Γ) (declared : ∀ x k, Γ x k → (x, k) ∈ sig)
    {t : Term} (ht : Clause Γ t) : Progress.Proceeds sig Γ (p.settle t) := by
  induction ht generalizing p with
  | eq ha hb =>
    rw [Term.eq, Progress.settle]
    exact hp.equate declared ha hb
  | @all ts each ih =>
    rw [Progress.settle_all]
    clear each
    induction ts generalizing p with
    | nil =>
      rw [Progress.settleAll]
      exact hp
    | cons t rest ihs =>
      obtain ⟨hfirst, hrest⟩ := List.forall_mem_cons.1 ih
      rw [Progress.settleAll]
      exact (hfirst hp).bind fun q hq => ihs hrest hq
  | @implies a c ha hc ih =>
    obtain ⟨v, hv, -⟩ := State.exists_eval_hasKind hp.state declared ha
    rw [Term.implies, Progress.settle, hv]
    change Progress.Proceeds sig Γ (if !v.known then _ else if !v.truth then _ else _)
    split_ifs
    · exact hp.postpone (.implies ha hc)
    · exact hp
    · exact ih hp
  | @not t ht =>
    obtain ⟨v, hv, hkind⟩ := State.exists_eval_hasKind hp.state declared ht.not
    exact hp.judge (.not ht) hv hkind

theorem Progress.Safe.foldlM (hp : p.Safe sig Γ) (declared : ∀ x k, Γ x k → (x, k) ∈ sig)
    {work : List Term} (hwork : ∀ t ∈ work, Clause Γ t) :
    Progress.Proceeds sig Γ (work.foldlM Progress.settle p) := by
  induction work generalizing p with
  | nil => exact hp
  | cons t rest ih =>
    obtain ⟨ht, hrest⟩ := List.forall_mem_cons.1 hwork
    rw [List.foldlM_cons]
    exact (hp.settle declared ht).bind fun q hq => ih hq hrest

/-! ## Solving -/

/-- A result that is a verdict or leaves the formula undetermined. -/
def Answered : Except PropagationError Solution → Prop
  | .ok _ => True
  | .error (.undetermined _ _) => True
  | .error _ => False

theorem answered_passes (declared : ∀ x k, Γ x k → (x, k) ∈ sig) {work : List Term}
    (wk : s.WellKinded sig) (hwork : ∀ t ∈ work, Clause Γ t) : Answered (passes s work) := by
  revert wk hwork
  refine passes_induction (P := fun s work r => s.WellKinded sig → (∀ t ∈ work, Clause Γ t) →
    Answered r) ?done ?failed ?contradiction ?stuck ?next s work
  case done | contradiction | stuck => intros; trivial
  case failed =>
    intro s work e h wk hwork
    have hpass := Progress.Safe.foldlM (p := { state := s }) ⟨wk, by simp⟩ declared hwork
    rw [← pass, h] at hpass
    exact hpass.elim
  case next =>
    intro s work p _ h _ ih wk hwork
    have hpass := Progress.Safe.foldlM (p := { state := s }) ⟨wk, by simp⟩ declared hwork
    rw [← pass, h] at hpass
    exact ih hpass.state hpass.pending

theorem exists_declareAll {f : Formula} (unique : (f.signature.map Prod.fst).Nodup) :
    ∃ s, declareAll f = .ok s := by
  have hcommands : ∀ (f : Formula) (s : State), (f.signature.map Prod.fst).Nodup →
      (∀ x ∈ f.signature.map Prod.fst, s.sorts[x]? = none) →
      ∃ s', f.foldlM State.declareCommand s = .ok s' := by
    intro f
    induction f with
    | nil => exact fun s _ _ => ⟨s, rfl⟩
    | cons c rest ih =>
      intro s hnodup hfree
      have hone : ∀ (x : String) (τ : TermSort) (k : Kind), c.declared? = some (x, k) →
          s.declareCommand c = s.declare x τ →
          ∃ s', (c :: rest).foldlM State.declareCommand s = .ok s' := by
        intro x τ k hc hcommand
        rw [Formula.signature, List.filterMap_cons_some hc, List.map_cons] at hnodup hfree
        obtain ⟨hnot, hrest⟩ := List.nodup_cons.1 hnodup
        obtain ⟨hx, hothers⟩ := List.forall_mem_cons.1 hfree
        have hdeclare : s.declare x τ = .ok { s with sorts := s.sorts.insert x τ } := by
          have hfree : s.sorts.contains x = false := by
            rw [Std.HashMap.contains_eq_isSome_getElem?, hx]
            rfl
          simp [State.declare, hfree]
        rw [List.foldlM_cons, hcommand, hdeclare]
        refine ih _ hrest fun y hy => ?_
        have hne : x ≠ y := fun h => hnot (h ▸ hy)
        rw [Std.HashMap.getElem?_insert, if_neg (by simpa using hne)]
        exact hothers y hy
      cases c with
      | declareBits x w => exact hone _ _ _ rfl rfl
      | declareArray x a d => exact hone _ _ _ rfl rfl
      | _ => exact ih s hnodup hfree
  exact hcommands f {} unique (by simp)

/-- The assertions of a sorted formula are clauses over what it declares. -/
theorem clause_of_sorted {f : Formula} (sorted : f.Sorted fun _ _ => False) {t : Term}
    (ht : t ∈ assertedTerms f) : Clause (fun x k => (x, k) ∈ f.signature) t := by
  obtain ⟨before, rest, rfl⟩ := List.append_of_mem (mem_assertedTerms.1 ht)
  refine sorted.clause.mono fun x k hx => ?_
  rw [Formula.signature_append, List.mem_append]
  exact .inl (hx.resolve_left id)

/-- A sorted formula gets a verdict or is left undetermined. -/
theorem answered_solve {f : Formula} (sorted : f.Sorted fun _ _ => False)
    (unique : (f.signature.map Prod.fst).Nodup) : Answered (solve f) := by
  obtain ⟨s, hs⟩ := exists_declareAll unique
  have hsolve : solve f = passes s (assertedTerms f) := by
    rw [solve, hs]
    rfl
  rw [hsolve]
  exact answered_passes (fun _ _ h => h) (declareAll_spec unique hs).1
    fun t ht => clause_of_sorted sorted ht

theorem wellSorted_of_sorted {f : Formula} (sorted : f.Sorted fun _ _ => False)
    (unique : (f.signature.map Prod.fst).Nodup) :
    f.WellSorted ∧ f.ExtensionsBelow extensionBound := by
  have hproper : ∀ t, Command.assert t ∈ f → t.Proper f.signature .truth := fun t ht =>
    (clause_of_sorted sorted (mem_assertedTerms.2 ht)).proper fun _ _ h => h
  exact ⟨⟨unique, fun t ht => (hproper t ht).kind⟩, fun t ht => (hproper t ht).short _ (by decide)⟩

end CycleCheck.Propagation
