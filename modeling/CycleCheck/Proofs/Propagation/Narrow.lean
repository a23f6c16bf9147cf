import CycleCheck.Proofs.Propagation.Totality
import CycleCheck.Proofs.Propagation.Wrapping

/-!
Narrow terms. Words of at most 64 bits are all that propagation can compute with: the value of a
well sorted term of which no subterm is wider is never an error, and neither is a definition by an
equality of such terms.
-/

namespace CycleCheck

/-- A term is a subterm of another one, or the term itself. -/
inductive Term.Within : Term → Term → Prop where
  | self (t : Term) : t.Within t
  | arg {t u : Term} {op : Op} {indices : List Numeral} {args : List Term} (mem : u ∈ args)
      (within : t.Within u) : t.Within (.app op indices args)

theorem Term.within_app {t : Term} {op : Op} {indices : List Numeral} {args : List Term} :
    t.Within (.app op indices args) ↔ t = .app op indices args ∨ ∃ u ∈ args, t.Within u := by
  constructor
  · intro h
    cases h with
    | self => exact .inl rfl
    | arg mem within => exact .inr ⟨_, mem, within⟩
  · rintro (rfl | ⟨u, mem, within⟩)
    · exact .self _
    · exact .arg mem within

/-- A term without arguments has no other subterm. -/
theorem Term.within_leaf {t u : Term} (leaf : ∀ op indices args, u ≠ .app op indices args) :
    t.Within u ↔ t = u := by
  constructor
  · intro h
    cases h with
    | self => rfl
    | arg => exact (leaf _ _ _ rfl).elim
  · rintro rfl
    exact .self _

/-- The operators that put words together, with what is said when the result is too wide. -/
inductive Op.Refuses : Op → String → Prop where
  | concat : Op.Refuses .concat "concatenation wider than 64 bits"
  | zeroExtend : Op.Refuses .zeroExtend "extension wider than 64 bits"

/-- No subterm is a word of more than 64 bits. -/
def Term.Narrow (sig : Signature) (t : Term) : Prop :=
  ∀ (u : Term) (w : Nat), u.Within t → u.HasKind sig (.bits w) → w ≤ 64

/-- Arrays are not compared with one another. -/
def Term.ComparesNoArrays (sig : Signature) (t : Term) : Prop :=
  ∀ op indices args, (Term.app op indices args).Within t → op ∈ [Op.eq, .distinct] →
    ∀ a ∈ args, ∀ n d, ¬ a.HasKind sig (.array n d)

/-- No word in the assertions of a formula has more than 64 bits. -/
def Formula.Narrow (f : Formula) : Prop := ∀ t, Command.assert t ∈ f → t.Narrow f.signature

/-- The assertions of a formula do not compare arrays. -/
def Formula.ComparesNoArrays (f : Formula) : Prop :=
  ∀ t, Command.assert t ∈ f → t.ComparesNoArrays f.signature

theorem Term.HaveKinds.length_eq {sig : Signature} {ts : List Term} {ks : List Kind}
    (h : Term.HaveKinds sig ts ks) : ts.length = ks.length := by
  induction ts generalizing ks with
  | nil =>
    obtain rfl : ks = [] := h
    rfl
  | cons t rest ih =>
    obtain ⟨k, ks, rfl, -, hks⟩ := h
    rw [List.length_cons, List.length_cons, ih hks]

namespace Propagation

/-- A well sorted narrow term that does not compare arrays. -/
structure Tame (sig : Signature) (t : Term) (k : Kind) : Prop where
  kind : t.HasKind sig k
  narrow : t.Narrow sig
  scalar : t.ComparesNoArrays sig

variable {sig : Signature} {s : State} {a b c t : Term} {k : Kind}

namespace Tame

theorem width_le {w : Nat} (h : Tame sig t (.bits w)) : w ≤ 64 := h.narrow t w (.self t) h.kind

/-- The arguments of a tame term are tame. -/
theorem of_app {op : Op} {indices : List Numeral} {args : List Term}
    (h : Tame sig (.app op indices args) k) :
    ∃ ks, Term.HaveKinds sig args ks ∧ Rank op indices ks k ∧
      ∀ t ∈ args, ∀ k', t.HasKind sig k' → Tame sig t k' := by
  obtain ⟨ks, hks, rank⟩ := h.kind
  refine ⟨ks, hks, rank, fun t ht k' hk' => ⟨hk', fun u w hu => ?_, fun op' i' as hu => ?_⟩⟩
  · exact h.narrow u w (.arg ht hu)
  · exact h.scalar op' i' as (.arg ht hu)

theorem exists_of_mem {op : Op} {indices : List Numeral} {args : List Term}
    (h : Tame sig (.app op indices args) k) (ht : t ∈ args) : ∃ k', Tame sig t k' := by
  obtain ⟨ks, hks, -, hargs⟩ := h.of_app
  obtain ⟨k', -, hk'⟩ := Term.HaveKinds.mem hks ht
  exact ⟨k', hargs t ht k' hk'⟩

theorem of_and {indices : List Numeral} {args : List Term}
    (h : Tame sig (.app .and indices args) .truth) : ∀ t ∈ args, Tame sig t .truth := by
  obtain ⟨ks, hks, rank, hargs⟩ := h.of_app
  intro t ht
  obtain ⟨k, hk, hkind⟩ := Term.HaveKinds.mem hks ht
  obtain rfl := (rank.of_connective (by simp)).2 k hk
  exact hargs t ht _ hkind

theorem of_implies {indices : List Numeral} (h : Tame sig (.app .implies indices [a, c]) k) :
    Tame sig a .truth ∧ Tame sig c .truth := by
  obtain ⟨ks, hks, rank, hargs⟩ := h.of_app
  obtain ⟨rfl, -⟩ := rank.of_implies
  obtain ⟨ha, hc⟩ := Term.haveKinds_pair.1 hks
  exact ⟨hargs a (by simp) _ ha, hargs c (by simp) _ hc⟩

theorem of_ite {indices : List Numeral} (h : Tame sig (.app .ite indices [c, a, b]) k) :
    Tame sig c .truth ∧ Tame sig a k ∧ Tame sig b k := by
  obtain ⟨ks, hks, rank, hargs⟩ := h.of_app
  obtain rfl := rank.of_ite
  obtain ⟨hc, ha, hb⟩ := Term.haveKinds_triple.1 hks
  exact ⟨hargs c (by simp) _ hc, hargs a (by simp) _ ha, hargs b (by simp) _ hb⟩

/-- The two sides of an equality have one sort, and it is not the sort of an array. -/
theorem of_eq {indices : List Numeral} (h : Tame sig (.app .eq indices [a, b]) k) :
    ∃ k', Tame sig a k' ∧ Tame sig b k' ∧ ∀ n d, k' ≠ .array n d := by
  obtain ⟨ks, hks, rank, hargs⟩ := h.of_app
  obtain ⟨-, k', hsame⟩ := rank.of_equality (by simp)
  obtain ⟨ka, _, rfl, hka, kb, _, rfl, hkb, -⟩ := hks
  obtain ⟨rfl, rfl⟩ : ka = k' ∧ kb = k' := ⟨hsame ka (by simp), hsame kb (by simp)⟩
  refine ⟨_, hargs a (by simp) _ hka, hargs b (by simp) _ hkb, ?_⟩
  rintro n d rfl
  exact h.scalar _ _ _ (.self _) (by simp) a (by simp) n d hka

theorem of_select {indices : List Numeral} {x : Symbol}
    (h : Tame sig (.app .select indices [.symbol x, t]) k) :
    ∃ n d, (x.name, .array n d) ∈ sig ∧ Tame sig t (.bits n) ∧ k = .bits d := by
  obtain ⟨ks, hks, rank, hargs⟩ := h.of_app
  obtain ⟨n, d, rfl, rfl⟩ := rank.of_select
  obtain ⟨hx, ht⟩ := Term.haveKinds_pair.1 hks
  exact ⟨n, d, hx, hargs t (by simp) _ ht, rfl⟩

/-- A narrow term has no overlong extensions. -/
theorem extensionsBelow : (t : Term) → (k : Kind) → Tame sig t k →
    t.ExtensionsBelow extensionBound
  | .app op indices args, k, h => by
    obtain ⟨ks, hks, rank, hargs⟩ := h.of_app
    refine ⟨?_, Term.allExtensionsBelow_iff.2 fun t ht => ?_⟩
    · rintro rfl
      cases rank with
      | zeroExtend =>
        have hwidth := h.width_le
        simp only [List.mem_singleton, forall_eq, extensionBound]
        omega
      | _ => simp_all
    · obtain ⟨k', hk'⟩ := h.exists_of_mem ht
      exact extensionsBelow t k' hk'
  | .symbol _, _, _ | .numeral _, _, _ | .binary _, _, _ | .hex _, _, _ | .bool _, _, _ => by
    simp [Term.ExtensionsBelow]

theorem short (h : Tame sig t k) : t.ExtensionsBelow extensionBound := extensionsBelow t k h

end Tame

/-! ## Values -/

/-- An operator on known values of the right sorts has a value, or it is refused because it puts a
word of more than 64 bits together. -/
theorem State.strict_outcome {op : Op} {indices : List Numeral} {ks : List Kind}
    (rank : Rank op indices ks k) (strict : op ∉ [Op.and, .or, .eq, .distinct, .implies, .ite])
    {vals : List Value} (hvals : List.Forall₂ Value.HasWidth vals ks)
    (known : ∀ v ∈ vals, v.known = true) :
    (∃ v, s.strict op indices vals = .ok v) ∨
      ∃ what w, s.strict op indices vals = .error (.unsupported what) ∧ op.Refuses what ∧
        k = .bits w ∧ 64 < w := by
  cases rank with
  | connective which _ =>
    simp only [List.mem_cons, List.not_mem_nil, or_false] at which
    rcases which with rfl | rfl | rfl
    · simp at strict
    · simp at strict
    · exact .inl ⟨_, rfl⟩
  | equality which _ =>
    simp only [List.mem_cons, List.not_mem_nil, or_false] at which
    rcases which with rfl | rfl <;> simp at strict
  | implies | ite => simp at strict
  | not | bvnot =>
    obtain _ | ⟨ha, _ | _⟩ := hvals
    exact .inl ⟨_, rfl⟩
  | word which =>
    obtain _ | ⟨ha, _ | ⟨hb, _ | _⟩⟩ := hvals
    refine .inl ?_
    simp only [List.mem_cons, List.not_mem_nil, or_false] at which
    rcases which with rfl | rfl | rfl | rfl | rfl | rfl | rfl <;> simp only [State.strict]
    case inr.inr.inr.inr.inr.inl | inr.inr.inr.inr.inr.inr => split_ifs <;> exact ⟨_, rfl⟩
    all_goals exact ⟨_, rfl⟩
  | comparison which =>
    obtain _ | ⟨ha, _ | ⟨hb, _ | _⟩⟩ := hvals
    simp only [List.mem_cons, List.not_mem_nil, or_false] at which
    rcases which with rfl | rfl | rfl | rfl <;> exact .inl ⟨_, rfl⟩
  | concat =>
    obtain _ | ⟨ha, _ | ⟨hb, _ | _⟩⟩ := hvals
    obtain ⟨x, rfl⟩ := ha.exists_bits (known _ (by simp))
    obtain ⟨y, rfl⟩ := hb.exists_bits (known _ (by simp))
    rw [State.strict_concat]
    split_ifs with hwide
    · exact .inr ⟨_, _, rfl, .concat, rfl, Nat.lt_of_not_le fun hle => not_gt_of_le hle hwide⟩
    · exact .inl ⟨_, rfl⟩
  | extract =>
    obtain _ | ⟨ha, _ | _⟩ := hvals
    exact .inl ⟨_, rfl⟩
  | zeroExtend =>
    obtain _ | ⟨ha, _ | _⟩ := hvals
    obtain ⟨x, rfl⟩ := ha.exists_bits (known _ (by simp))
    rw [State.strict_zeroExtend, indexInt_eq]
    split_ifs with hwide
    · exact .inr ⟨_, _, rfl, .zeroExtend, rfl, Nat.lt_of_not_le fun hle => not_gt_of_le hle hwide⟩
    · exact .inl ⟨_, rfl⟩
  | select =>
    obtain _ | ⟨ha, _ | ⟨hi, _ | _⟩⟩ := hvals
    obtain ⟨m, rfl, -⟩ := ha.exists_array (known _ (by simp))
    refine .inl ?_
    simp only [State.strict]
    split <;> exact ⟨_, rfl⟩
  | store =>
    obtain _ | ⟨ha, _ | ⟨hi, _ | ⟨hv, _ | _⟩⟩⟩ := hvals
    obtain ⟨m, rfl, -⟩ := ha.exists_array (known _ (by simp))
    exact .inl ⟨_, rfl⟩

/-- The operators that need not know all their arguments always have a value. -/
theorem State.applyOp_outcome {op : Op} {indices : List Numeral} {ks : List Kind}
    (rank : Rank op indices ks k) (plain : op ∉ [Op.implies, .ite]) {vals : List Value}
    (hvals : List.Forall₂ Value.HasWidth vals ks) :
    (∃ v, s.applyOp op indices vals = .ok v) ∨
      ∃ what w, s.applyOp op indices vals = .error (.unsupported what) ∧ op.Refuses what ∧
        k = .bits w ∧ 64 < w := by
  unfold State.applyOp
  split
  case h_5 _ hand hor heq hdistinct =>
    split_ifs with hall
    · refine State.strict_outcome rank ?_ hvals (List.all_eq_true.1 hall)
      simp only [List.mem_cons, List.not_mem_nil, or_false] at plain ⊢
      tauto
    · exact .inl ⟨_, rfl⟩
  all_goals exact .inl ⟨_, rfl⟩

/-- An operator on values of the right sorts has a value, if it gives no wide word. -/
theorem State.exists_applyOp {op : Op} {indices : List Numeral} {ks : List Kind}
    (rank : Rank op indices ks k) (plain : op ∉ [Op.implies, .ite])
    (narrow : ∀ w, k = .bits w → w ≤ 64) {vals : List Value}
    (hvals : List.Forall₂ (Value.HasKind sig) vals ks) :
    ∃ v, s.applyOp op indices vals = .ok v := by
  rcases State.applyOp_outcome (s := s) rank plain (hvals.imp fun _ _ => Value.HasKind.hasWidth)
    with hvalue | ⟨-, w, -, -, hw, hwide⟩
  · exact hvalue
  · exact absurd (narrow w hw) (Nat.not_le.2 hwide)

/-- An application that evaluation has no own rule for is neither an implication nor a choice. -/
theorem plain_of_rank {op : Op} {indices : List Numeral} {args : List Term} {ks : List Kind}
    (rank : Rank op indices ks k) (length : args.length = ks.length)
    (notImplies : ∀ a c, op = .implies → args = [a, c] → False)
    (notIte : ∀ c a b, op = .ite → args = [c, a, b] → False) : op ∉ [Op.implies, .ite] := by
  simp only [List.mem_cons, List.not_mem_nil, or_false]
  rintro (rfl | rfl)
  · obtain ⟨rfl, -⟩ := rank.of_implies
    obtain ⟨a, c, rfl⟩ := List.length_eq_two.1 length
    exact notImplies a c rfl rfl
  · obtain rfl := rank.of_ite
    obtain ⟨c, a, b, rfl⟩ := List.length_eq_three.1 length
    exact notIte c a b rfl rfl

/-- A tame term has a value in every well sorted state. -/
theorem State.exists_eval_and_evalAll_of_tame (wk : s.WellKinded sig) :
    (∀ t : Term, ∀ k, Tame sig t k → ∃ v, s.eval t = .ok v) ∧
    ∀ ts : List Term, (∀ t ∈ ts, ∃ k, Tame sig t k) → ∃ vs, s.evalAll ts = .ok vs := by
  refine State.eval.mutual_induct
    (fun t => ∀ k, Tame sig t k → ∃ v, s.eval t = .ok v)
    (fun ts => (∀ t ∈ ts, ∃ k, Tame sig t k) → ∃ vs, s.evalAll ts = .ok vs)
    ?bool ?binary ?hex ?symbol ?numeral ?implies ?ite ?app ?nil ?cons
  case bool =>
    intro b k _
    exact ⟨_, rfl⟩
  case binary | hex =>
    intro digits k h
    obtain rfl : k = .bits _ := h.kind
    rw [State.eval, constant, if_neg (by have := h.width_le; omega)]
    exact ⟨_, rfl⟩
  case symbol =>
    intro x k h
    exact State.exists_symbol wk h.kind
  case numeral =>
    intro n k h
    exact h.kind.elim
  case implies =>
    intro indices a c iha ihc k h
    obtain ⟨ha, hc⟩ := h.of_implies
    obtain ⟨va, hva⟩ := iha _ ha
    obtain ⟨vc, hvc⟩ := ihc _ hc
    rw [State.eval_implies_of_ok hva, hvc]
    split_ifs <;> exact ⟨_, rfl⟩
  case ite =>
    intro indices c a b ihc iha ihb k h
    obtain ⟨hc, ha, hb⟩ := h.of_ite
    obtain ⟨vc, hvc⟩ := ihc _ hc
    obtain ⟨va, hva⟩ := iha _ ha
    obtain ⟨vb, hvb⟩ := ihb _ hb
    cases hknown : vc.known with
    | true =>
      rw [State.eval_ite_of_known hvc hknown]
      split_ifs
      · exact ⟨va, hva⟩
      · exact ⟨vb, hvb⟩
    | false =>
      rw [State.eval_ite_of_unknown hvc hknown, hva, hvb]
      exact ⟨choice va vb, rfl⟩
  case app =>
    intro op indices args hnotImplies hnotIte ih k h
    obtain ⟨ks, hks, rank, -⟩ := h.of_app
    obtain ⟨vals, hvals⟩ := ih fun t ht => h.exists_of_mem ht
    have hkinds := (State.eval_hasKind_and_evalAll wk extensionBound_le).2 args ks vals hks h.short.2
      hvals
    have hplain := plain_of_rank rank hks.length_eq hnotImplies hnotIte
    rw [State.eval.eq_8 _ _ _ _ ‹_› ‹_›, hvals]
    exact State.exists_applyOp rank hplain (fun w hw => (hw ▸ h).width_le) hkinds
  case nil =>
    intro _
    exact ⟨_, rfl⟩
  case cons =>
    intro t rest iht ihrest h
    obtain ⟨⟨k, hk⟩, hrest⟩ := List.forall_mem_cons.1 h
    obtain ⟨v, hv⟩ := iht k hk
    obtain ⟨vs, hvs⟩ := ihrest hrest
    exact ⟨_, State.evalAll_cons hv hvs⟩

theorem Tame.exists_eval (h : Tame sig t k) (wk : s.WellKinded sig) :
    ∃ v, s.eval t = .ok v ∧ v.HasKind sig k := by
  obtain ⟨v, hv⟩ := (State.exists_eval_and_evalAll_of_tame wk).1 t k h
  exact ⟨v, hv, State.eval_hasKind wk h.kind h.short hv⟩

/-- A definition by an equality of tame terms is not an error. -/
theorem Tame.exists_define (ha : Tame sig a k) (hb : Tame sig b k) (wk : s.WellKinded sig) :
    ∃ d, s.define a b = .ok d := by
  have hterm : ∀ {target other : Term}, Tame sig target k → Tame sig other k →
      ∃ d, s.defineTerm target other = .ok d := by
    intro target other ht ho
    obtain ⟨v, hv, hkind⟩ := ho.exists_eval wk
    unfold State.defineTerm
    split
    · exact State.exists_defineSymbol wk ht.kind hv hkind
    · obtain ⟨n, d, hx, hi, rfl⟩ := ht.of_select
      obtain ⟨i, hi, -⟩ := hi.exists_eval wk
      exact State.exists_defineSelect wk hx hi hv hkind
    · exact ⟨none, rfl⟩
  obtain ⟨d, hd⟩ := hterm ha hb
  obtain ⟨d', hd'⟩ := hterm hb ha
  unfold State.define
  rw [hd]
  cases d with
  | some d => exact ⟨some d, rfl⟩
  | none => exact ⟨d', hd'⟩

end Propagation

end CycleCheck
