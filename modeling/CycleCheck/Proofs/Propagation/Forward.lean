import CycleCheck.Proofs.Propagation.Totality

/-!
Propagation forwards. As long as each assertion gives a new symbol a value in terms of symbols that
are known, or is about known symbols only, one pass settles all assertions in their order: nothing
is left pending, and what is known grows by what the assertions define.
-/

namespace CycleCheck

/-- A scope with more symbols. -/
def Scope.extend (Γ : Scope) (xs : List (String × Kind)) : Scope := fun x k => Γ x k ∨ (x, k) ∈ xs

theorem Scope.extend_nil (Γ : Scope) : Γ.extend [] = Γ := by
  funext x k
  simp [Scope.extend]

theorem Scope.extend_append (Γ : Scope) (xs ys : List (String × Kind)) :
    (Γ.extend xs).extend ys = Γ.extend (xs ++ ys) := by
  funext x k
  simp [Scope.extend, or_assoc]

theorem Term.Evaluable.extend {Γ : Scope} {t : Term} {k : Kind} (h : t.Evaluable Γ k)
    (xs : List (String × Kind)) : t.Evaluable (Γ.extend xs) k :=
  h.mono fun _ _ => Or.inl

theorem Scope.extend_self (Γ : Scope) (xs : List (String × Kind)) :
    (Γ.extend xs).extend xs = Γ.extend xs := by
  funext x k
  simp [Scope.extend]

theorem Scope.extend_congr (Γ : Scope) {xs ys : List (String × Kind)}
    (h : ∀ e, e ∈ xs ↔ e ∈ ys) : Γ.extend xs = Γ.extend ys := by
  funext x k
  exact propext (or_congr_right (h (x, k)))

/-- A symbol that is not in scope at any sort. -/
def Scope.Free (Γ : Scope) (x : String) : Prop := ∀ k, ¬ Γ x k

theorem Term.Evaluable.of_symbol {Γ : Scope} {x : Symbol} {k : Kind}
    (h : (Term.symbol x).Evaluable Γ k) : Γ x.name k := by
  generalize ht : Term.symbol x = t at h
  induction h with
  | symbol inScope =>
    cases ht
    exact inScope
  | word =>
    unfold Term.word at ht
    split_ifs at ht
  | @all ts _ ih =>
    match ts with
    | [] => cases ht
    | [t] => exact ih t List.mem_cons_self ht
    | _ :: _ :: _ => cases ht
  | _ => cases ht

namespace Propagation

variable {sig : Signature} {I : Interpretation} {Γ Δ : Scope} {s s' : State} {p q : Progress}

/-! ## What stays known -/

/-- A symbol stays known if nothing about it changes and no cell is lost. -/
theorem State.Knows.of_same {y : String} {k : Kind} (h : s.Knows y k)
    (sorts : s'.sorts = s.sorts) (values : s'.values[y]? = s.values[y]?)
    (arrays : s'.arrays[y]? = s.arrays[y]?)
    (cells : ∀ c : String × UInt64, s.cells[c]?.isSome → s'.cells[c]?.isSome) : s'.Knows y k := by
  obtain ⟨v, hv, hsolid⟩ := h
  refine ⟨v, ?_, ?_⟩
  · rw [← hv, State.symbol, State.symbol, sorts, values, arrays]
  · cases k with
    | truth | bits => exact hsolid
    | array a d =>
      obtain ⟨m, rfl, hfull⟩ := hsolid
      refine ⟨m, rfl, fun i hi => ?_⟩
      have hsome := hfull i hi
      unfold State.lookup at hsome ⊢
      cases hfind : m.stores.find? (·.1 == i) with
      | some e => rfl
      | none =>
        rw [hfind] at hsome
        exact cells _ hsome

/-- Two states that differ only in what they know of one symbol, and the second knows more. -/
structure State.Touches (s s' : State) (x : String) : Prop where
  sorts : s'.sorts = s.sorts
  others : ∀ y, y ≠ x → s'.values[y]? = s.values[y]? ∧ s'.arrays[y]? = s.arrays[y]?
  cells : ∀ c : String × UInt64, s.cells[c]?.isSome → s'.cells[c]?.isSome

theorem State.Touches.refl (s : State) (x : String) : s.Touches s x :=
  ⟨rfl, fun _ _ => ⟨rfl, rfl⟩, fun _ h => h⟩

theorem State.Touches.trans {s'' : State} {x : String} (h : s.Touches s' x)
    (h' : s'.Touches s'' x) : s.Touches s'' x where
  sorts := h'.sorts.trans h.sorts
  others y hy :=
    ⟨(h'.others y hy).1.trans (h.others y hy).1, (h'.others y hy).2.trans (h.others y hy).2⟩
  cells c hc := h'.cells c (h.cells c hc)

theorem State.Touches.knows {x y : String} {k : Kind} (h : s.Touches s' x) (hy : y ≠ x)
    (hknows : s.Knows y k) : s'.Knows y k :=
  hknows.of_same h.sorts (h.others y hy).1 (h.others y hy).2 h.cells

theorem State.touches_add_value (s : State) (x : String) (v : UInt64) :
    s.Touches (s.add (.value x v)) x where
  sorts := rfl
  others y hy := by simp [State.add, Std.HashMap.getElem?_insert, Ne.symm hy]
  cells _ hc := hc

theorem State.touches_add_array (s : State) (x : String) (m : Memory) :
    s.Touches (s.add (.array x m)) x where
  sorts := rfl
  others y hy := by simp [State.add, Std.HashMap.getElem?_insert, Ne.symm hy]
  cells _ hc := hc

theorem State.touches_add_cell (s : State) (x : String) (root : Memory) (i v : UInt64) :
    s.Touches (s.add (.cell x root i v)) x where
  sorts := rfl
  others y hy := by simp [State.add, Std.HashMap.getElem?_insert, Ne.symm hy]
  cells c hc := by
    rw [State.add, Std.HashMap.getElem?_insert]
    split_ifs
    · rfl
    · exact hc

/-- Settling a conjunction goes through its terms. -/
theorem Progress.settleAll_of_terms {ts : List Term}
    (each : ∀ t ∈ ts, (I.Holds t → p.settle t = .ok p) ∧
      (¬ I.Holds t → ∃ u, p.settle t = .error (.contradiction u))) :
    ((∀ t ∈ ts, I.Holds t) → p.settleAll ts = .ok p) ∧
      ((¬ ∀ t ∈ ts, I.Holds t) → ∃ u, p.settleAll ts = .error (.contradiction u)) := by
  induction ts with
  | nil => exact ⟨fun _ => by rw [Progress.settleAll], fun h => absurd (by simp) h⟩
  | cons t rest ih =>
    obtain ⟨hfirst, hrest⟩ := List.forall_mem_cons.1 each
    rw [List.forall_mem_cons, Progress.settleAll]
    by_cases ht : I.Holds t
    · rw [hfirst.1 ht]
      refine ⟨fun h => (ih hrest).1 h.2, fun h => (ih hrest).2 fun hall => h ⟨ht, hall⟩⟩
    · obtain ⟨u, hu⟩ := hfirst.2 ht
      rw [hu]
      exact ⟨fun h => absurd h.1 ht, fun _ => ⟨u, rfl⟩⟩

/-- The symbols in scope are known, an interpretation agrees with all that is known, and nothing is
pending. -/
structure Progress.Aware (sig : Signature) (I : Interpretation) (Γ : Scope) (p : Progress) :
    Prop where
  state : p.state.WellKinded sig
  agrees : p.state.Agrees I
  pending : p.pending = #[]
  declared : ∀ x k, Γ x k → (x, k) ∈ sig
  known : ∀ x k, Γ x k → p.state.Knows x k

/-- Apart from the symbols in scope nothing is known. -/
structure Progress.Knowing (sig : Signature) (I : Interpretation) (Γ : Scope) (p : Progress) : Prop
    extends Progress.Aware sig I Γ p where
  free : ∀ x, Γ.Free x → p.state.values[x]? = none ∧ p.state.arrays[x]? = none

namespace Progress.Aware

/-- Terms in scope have known values, and these are right. -/
theorem eval (hp : p.Aware sig I Γ) (fits : I.Fits sig) {t : Term} {k : Kind}
    (ht : t.Evaluable Γ k) : ∃ v, p.state.eval t = .ok v ∧ p.state.Solid v k ∧
      v.Stands sig I (I.denote t) := by
  obtain ⟨v, hv, hsolid⟩ := State.exists_eval hp.state hp.declared ht
  have hproper := ht.proper hp.declared
  exact ⟨v, hv, hsolid hp.known,
    State.eval_stands hp.state fits hp.agrees hproper.kind (hproper.short _ (by decide)) hv⟩

theorem eval_bits (hp : p.Aware sig I Γ) (fits : I.Fits sig) {t : Term} {w : Nat}
    (ht : t.Evaluable Γ (.bits w)) : ∃ v, p.state.eval t = .ok (.bits v (Int64.ofNat w)) ∧
      WordFits v w ∧ (I.denote t).number? = some v.toNat := by
  obtain ⟨v, hv, hsolid, hstands⟩ := hp.eval fits ht
  have hkind := hstands.1
  rw [I.kind_denote fits t _ (ht.proper hp.declared).kind] at hkind
  obtain ⟨x, rfl, hfit⟩ := hkind.exists_bits hsolid.known
  exact ⟨x, hv, hfit, hstands.2⟩

/-- The truth of a term in scope is known. -/
theorem eval_truth (hp : p.Aware sig I Γ) (fits : I.Fits sig) {t : Term}
    (ht : t.Evaluable Γ .truth) : ∃ b, p.state.eval t = .ok (.bool b) ∧ (I.Holds t ↔ b = true) := by
  obtain ⟨v, hv, hsolid, hstands⟩ := hp.eval fits ht
  have hkind := I.kind_denote fits t _ (ht.proper hp.declared).kind
  have htrue := hstands.isTrue_eq hkind hsolid.known
  rw [Meaning.eq_truth_of_kind hkind] at hstands
  refine ⟨_, hv.trans (congrArg Except.ok (hstands.eq_bool hsolid.known)), ?_⟩
  exact I.holds_iff_isTrue

/-- What is known of a symbol of a word. -/
theorem exists_value (hp : p.Aware sig I Γ) {x : String} {w : Nat} (hx : Γ x (.bits w)) :
    ∃ v, p.state.values[x]? = some v := by
  obtain ⟨v, hv, hsolid⟩ := hp.known x _ hx
  obtain ⟨τ, hτ, hof⟩ := hp.state.declared x _ (hp.declared x _ hx)
  cases τ with
  | array =>
    obtain ⟨_, _, h, -⟩ := hof
    cases h
  | bits =>
    rw [State.symbol, hτ] at hv
    cases hvalue : p.state.values[x]? with
    | some u => exact ⟨u, rfl⟩
    | none =>
      simp only [hvalue] at hv
      cases hv
      cases hsolid.known

/-- What is known of a symbol of an array. -/
theorem exists_memory (hp : p.Aware sig I Γ) {x : String} {a d : Nat} (hx : Γ x (.array a d)) :
    ∃ m, p.state.arrays[x]? = some m ∧
      ∀ i : UInt64, i.toNat < 2 ^ a → (p.state.lookup m i).isSome := by
  obtain ⟨_, hv, m, rfl, hfull⟩ := hp.known x _ hx
  obtain ⟨τ, hτ, hof⟩ := hp.state.declared x _ (hp.declared x _ hx)
  cases τ with
  | bits =>
    obtain ⟨_, h, -⟩ := hof
    cases h
  | array =>
    rw [State.symbol, hτ] at hv
    cases harray : p.state.arrays[x]? with
    | none =>
      simp only [harray] at hv
      cases hv
    | some m' =>
      simp only [harray] at hv
      cases hv
      exact ⟨m, rfl, hfull⟩

/-! ## Terms that are known -/

/-- What is known is not defined again. -/
theorem define_eq_none (hp : p.Aware sig I Γ) (fits : I.Fits sig) {a b : Term} {w : Nat}
    (ha : a.Evaluable Γ (.bits w)) (hb : b.Evaluable Γ (.bits w)) :
    p.state.define a b = .ok none := by
  have hterm : ∀ {target other : Term}, target.Evaluable Γ (.bits w) →
      p.state.defineTerm target other = .ok none := by
    intro target other ht
    unfold State.defineTerm
    split
    · next x =>
      obtain ⟨v, hv⟩ := hp.exists_value ht.of_symbol
      obtain ⟨τ, hτ, hof⟩ := hp.state.declared _ _ (hp.declared _ _ ht.of_symbol)
      cases τ with
      | array =>
        obtain ⟨_, _, h, -⟩ := hof
        cases h
      | bits =>
        have hcontains : p.state.values.contains x.name = true := by
          rw [Std.HashMap.contains_eq_isSome_getElem?, hv]
          rfl
        simp only [State.defineSymbol, hτ, hcontains, if_true]
    · next x index =>
      obtain ⟨n, d, hx, hi, -⟩ := ht.of_select
      obtain ⟨m, hm, hfull⟩ := hp.exists_memory hx.of_symbol
      obtain ⟨i, heval, hfit, -⟩ := hp.eval_bits fits hi
      obtain ⟨τ, hτ, hof⟩ := hp.state.declared _ _ (hp.declared _ _ hx.of_symbol)
      cases τ with
      | bits =>
        obtain ⟨_, h, -⟩ := hof
        cases h
      | array =>
        have hcell := hfull i hfit.2
        simp [State.defineSelect, hτ, hm, heval, hcell, Value.word, Value.known, bind, Except.bind,
          pure, Except.pure]
    · rfl
  rw [State.define, hterm ha]
  exact hterm hb

theorem judge_of_holds (hp : p.Aware sig I Γ) (fits : I.Fits sig) {t : Term}
    (ht : t.Evaluable Γ .truth) (holds : I.Holds t) : p.judge t = .ok p := by
  obtain ⟨b, hb, hiff⟩ := hp.eval_truth fits ht
  rw [hiff] at holds
  simp only [Progress.judge, hb, holds]

theorem judge_of_not_holds (hp : p.Aware sig I Γ) (fits : I.Fits sig) {t : Term}
    (ht : t.Evaluable Γ .truth) (fails : ¬ I.Holds t) :
    p.judge t = .error (.contradiction t) := by
  obtain ⟨b, hb, hiff⟩ := hp.eval_truth fits ht
  rw [hiff, Bool.not_eq_true] at fails
  simp only [Progress.judge, hb, fails]

/-- An equality of known words is judged. -/
theorem settle_eq (hp : p.Aware sig I Γ) (fits : I.Fits sig) {a b : Term} {w : Nat}
    (ha : a.Evaluable Γ (.bits w)) (hb : b.Evaluable Γ (.bits w)) :
    p.settle (.eq a b) = p.judge (.eq a b) := by
  rw [Term.eq, Progress.settle, Progress.equate, hp.define_eq_none fits ha hb]

/-- A term about known symbols is settled at once: it changes nothing if it is true, and it is a
contradiction if it is false. -/
theorem settle_of_evaluable (hp : p.Aware sig I Γ) (fits : I.Fits sig) {t : Term}
    (ht : t.Evaluable Γ .truth) : (I.Holds t → p.settle t = .ok p) ∧
      (¬ I.Holds t → ∃ u, p.settle t = .error (.contradiction u)) := by
  have hjudge : ∀ {u : Term}, u.Evaluable Γ .truth → p.settle u = p.judge u →
      (I.Holds u → p.settle u = .ok p) ∧
        (¬ I.Holds u → ∃ v, p.settle u = .error (.contradiction v)) := by
    intro u hu heq
    rw [heq]
    exact ⟨hp.judge_of_holds fits hu, fun h => ⟨u, hp.judge_of_not_holds fits hu h⟩⟩
  generalize hk : Kind.truth = k at ht
  induction ht with
  | symbol inScope =>
    subst hk
    exact hjudge (.symbol inScope) rfl
  | all each ih =>
    rw [Progress.settle_all, I.holds_all]
    exact Progress.settleAll_of_terms fun t ht => ih t ht rfl
  | not arg => exact hjudge (.not arg) rfl
  | eq left right => exact hjudge (.eq left right) (hp.settle_eq fits left right)
  | uge left right => exact hjudge (.uge left right) rfl
  | ite test left right =>
    subst hk
    exact hjudge (.ite test left right) rfl
  | _ => cases hk

end Progress.Aware

/-! ## Assertions in order -/

theorem Progress.settleAll_eq_foldlM (p : Progress) (ts : List Term) :
    p.settleAll ts = ts.foldlM Progress.settle p := by
  induction ts generalizing p with
  | nil => rw [Progress.settleAll]; rfl
  | cons t rest ih =>
    rw [Progress.settleAll, List.foldlM_cons]
    exact congrArg (p.settle t >>= ·) (funext ih)

/-- Settling assertions takes what is known from one scope to another, with nothing pending. -/
def Determines (sig : Signature) (I : Interpretation) (Γ : Scope) (ts : List Term) (Δ : Scope) :
    Prop :=
  ∀ p : Progress, p.Knowing sig I Γ → ∃ q, p.settleAll ts = .ok q ∧ q.Knowing sig I Δ

namespace Determines

theorem nil : Determines sig I Γ [] Γ := fun p hp => ⟨p, by rw [Progress.settleAll], hp⟩

theorem append {Θ : Scope} {ts us : List Term} (h : Determines sig I Γ ts Δ)
    (h' : Determines sig I Δ us Θ) : Determines sig I Γ (ts ++ us) Θ := by
  intro p hp
  obtain ⟨q, hq, hknows⟩ := h p hp
  obtain ⟨r, hr, hknows'⟩ := h' q hknows
  refine ⟨r, ?_, hknows'⟩
  rw [Progress.settleAll_eq_foldlM] at hq hr ⊢
  rw [List.foldlM_append, hq]
  exact hr

theorem cons {Θ : Scope} {t : Term} {ts : List Term} (h : Determines sig I Γ [t] Δ)
    (h' : Determines sig I Δ ts Θ) : Determines sig I Γ (t :: ts) Θ :=
  append h h'

theorem single {t : Term}
    (h : ∀ p : Progress, p.Knowing sig I Γ → ∃ q, p.settle t = .ok q ∧ q.Knowing sig I Δ) :
    Determines sig I Γ [t] Δ := by
  intro p hp
  obtain ⟨q, hq, hknows⟩ := h p hp
  refine ⟨q, ?_, hknows⟩
  rw [Progress.settleAll, hq]
  change q.settleAll [] = _
  rw [Progress.settleAll]

theorem settle {t : Term} (h : Determines sig I Γ [t] Δ) (hp : p.Knowing sig I Γ) :
    ∃ q, p.settle t = .ok q ∧ q.Knowing sig I Δ := by
  obtain ⟨q, hq, hknows⟩ := h p hp
  rw [Progress.settleAll] at hq
  obtain ⟨r, hr, hq⟩ := exists_ok_of_bind hq
  rw [Progress.settleAll] at hq
  cases hq
  exact ⟨q, hr, hknows⟩

/-- Assertions about known symbols. -/
theorem judged (fits : I.Fits sig) {t : Term} (ht : t.Evaluable Γ .truth) (holds : I.Holds t) :
    Determines sig I Γ [t] Γ :=
  single fun p hp => ⟨p, (hp.settle_of_evaluable fits ht).1 holds, hp⟩

theorem all {ts : List Term} (h : Determines sig I Γ ts Δ) : Determines sig I Γ [.all ts] Δ :=
  single fun p hp => by
    rw [Progress.settle_all]
    exact h p hp

/-- An implication whose antecedent is false. -/
theorem vacuous (fits : I.Fits sig) {a : Term} (c : Term) (ha : a.Evaluable Γ .truth)
    (fails : ¬ I.Holds a) : Determines sig I Γ [.implies a c] Γ :=
  single fun p hp => by
    obtain ⟨b, hb, hiff⟩ := hp.eval_truth fits ha
    rw [hiff, Bool.not_eq_true] at fails
    refine ⟨p, ?_, hp⟩
    rw [Term.implies, Progress.settle, hb, fails]
    rfl

/-- An implication whose antecedent is true does what its consequent does. -/
theorem discharged (fits : I.Fits sig) {a c : Term} (ha : a.Evaluable Γ .truth)
    (holds : I.Holds a) (h : Determines sig I Γ [c] Δ) : Determines sig I Γ [.implies a c] Δ :=
  single fun p hp => by
    obtain ⟨b, hb, hiff⟩ := hp.eval_truth fits ha
    rw [hiff] at holds
    rw [Term.implies, Progress.settle, hb, holds]
    exact h.settle hp

/-- Implications with the same effect: the first whose antecedent is true defines something, and
those after it confirm it. -/
theorem implications (fits : I.Fits sig) {ts : List Term} (sub : ∀ x k, Γ x k → Δ x k)
    (each : ∀ t ∈ ts, ∃ a c, t = .implies a c ∧ a.Evaluable Γ .truth ∧
      (I.Holds a → Determines sig I Γ [c] Δ ∧ Determines sig I Δ [c] Δ))
    (some : ∃ a c, Term.implies a c ∈ ts ∧ I.Holds a) : Determines sig I Γ ts Δ := by
  have hconfirmed : ∀ us : List Term, (∀ t ∈ us, t ∈ ts) → Determines sig I Δ us Δ := by
    intro us hus
    induction us with
    | nil => exact nil
    | cons t rest ih =>
      obtain ⟨ht, hrest⟩ := List.forall_mem_cons.1 hus
      obtain ⟨a, c, rfl, ha, hc⟩ := each t ht
      refine cons ?_ (ih hrest)
      by_cases holds : I.Holds a
      · exact discharged fits (ha.mono sub) holds (hc holds).2
      · exact vacuous fits c (ha.mono sub) holds
  induction ts with
  | nil =>
    obtain ⟨_, _, h, -⟩ := some
    cases h
  | cons t rest ih =>
    obtain ⟨⟨a, c, rfl, ha, hc⟩, hrest⟩ := List.forall_mem_cons.1 each
    by_cases holds : I.Holds a
    · exact cons (discharged fits ha holds (hc holds).1)
        (hconfirmed rest fun t ht => List.mem_cons_of_mem _ ht)
    · refine cons (vacuous fits c ha holds) (ih hrest ?_ ?_)
      · obtain ⟨a', c', hmem, holds'⟩ := some
        rcases List.mem_cons.1 hmem with heq | hmem
        · cases heq
          exact absurd holds' holds
        · exact ⟨a', c', hmem, holds'⟩
      · exact fun us hus => hconfirmed us fun t ht => List.mem_cons_of_mem _ (hus t ht)

/-! ### Definitions -/

/-- One more symbol is known. -/
theorem knowing_extend (hp : p.Knowing sig I Γ) {x : String} {k : Kind} (hx : (x, k) ∈ sig)
    (free : Γ.Free x) (state : q.state.WellKinded sig) (agrees : q.state.Agrees I)
    (pending : q.pending = #[]) (touches : p.state.Touches q.state x) (knows : q.state.Knows x k) :
    q.Knowing sig I (Γ.extend [(x, k)]) := by
  refine ⟨⟨state, agrees, pending, ?_, ?_⟩, fun y hy => ?_⟩
  · rintro y j (hy | hy)
    · exact hp.declared y j hy
    · cases List.mem_singleton.1 hy
      exact hx
  · rintro y j (hy | hy)
    · exact touches.knows (fun heq => free _ (heq ▸ hy)) (hp.known y j hy)
    · cases List.mem_singleton.1 hy
      exact knows
  · have hne : y ≠ x := fun heq => hy k (.inr (heq ▸ List.mem_singleton_self _))
    obtain ⟨hvalues, harrays⟩ := touches.others y hne
    rw [hvalues, harrays]
    exact hp.free y fun j hj => hy j (.inl hj)

/-- An equality that defines something is settled, and the definition is right. -/
theorem settle_of_define (wk : p.state.WellKinded sig) (agrees : p.state.Agrees I)
    (fits : I.Fits sig) {a b : Term} {k : Kind} {d : Definition}
    (hd : p.state.define a b = .ok (some d)) (ha : a.Proper sig k) (hb : b.Proper sig k)
    (holds : I.Holds (.eq a b)) :
    p.settle (.eq a b) = .ok (p.add d) ∧ (p.add d).state.WellKinded sig ∧
      (p.add d).state.Agrees I := by
  obtain ⟨hwk, hagrees⟩ := State.define_spec hd wk ha.kind hb.kind
    (ha.short _ (by decide)) (hb.short _ (by decide))
  refine ⟨?_, hwk, (hagrees I fits).2 ⟨agrees, I.holds_eq.1 holds⟩⟩
  rw [Term.eq, Progress.settle, Progress.equate, hd]

theorem contains_eq_false {α : Type} {m : Std.HashMap String α} {x : String} (h : m[x]? = none) :
    m.contains x = false := by
  rw [Std.HashMap.contains_eq_isSome_getElem?, h]
  rfl

/-- The definition of a symbol that is not known by a term in scope. -/
theorem exists_definition (hp : p.Knowing sig I Γ) (fits : I.Fits sig) {x : Symbol} {k : Kind}
    {b : Term} (hx : (x.name, k) ∈ sig) (free : Γ.Free x.name) (hb : b.Evaluable Γ k) :
    ∃ d, p.state.define (.symbol x) b = .ok (some d) ∧ (p.state.add d).Knows x.name k ∧
      p.state.Touches (p.state.add d) x.name := by
  obtain ⟨v, hv, hsolid, hstands⟩ := hp.eval fits hb
  have hkind := hstands.1
  rw [I.kind_denote fits b _ (hb.proper hp.declared).kind] at hkind
  obtain ⟨hvalue, harray⟩ := hp.free _ free
  obtain ⟨τ, hτ, hof⟩ := hp.state.declared _ _ hx
  cases τ with
  | bits =>
    obtain ⟨w, rfl, rfl⟩ := hof
    obtain ⟨u, rfl, -⟩ := hkind.exists_bits hsolid.known
    refine ⟨.value x.name u, ?_, ⟨.ofWord u (Int64.ofNat w), ?_, rfl⟩, State.touches_add_value ..⟩
    · simp [State.define, State.defineTerm, State.defineSymbol, hτ, contains_eq_false hvalue, hv,
        bind, Except.bind, pure, Except.pure]
    · simp [State.symbol, State.add, hτ]
  | array =>
    obtain ⟨a, d, rfl, rfl, rfl⟩ := hof
    obtain ⟨m, rfl, hfull⟩ := hsolid
    refine ⟨.array x.name m, ?_, ⟨.array m, ?_, m, rfl, hfull⟩, State.touches_add_array ..⟩
    · simp [State.define, State.defineTerm, State.defineSymbol, hτ, contains_eq_false harray, hv,
        bind, Except.bind, pure, Except.pure]
    · simp [State.symbol, State.add, hτ]

/-- A new symbol gets the value of a term in scope. -/
theorem defined (fits : I.Fits sig) {x : Symbol} {k : Kind} {b : Term}
    (hx : (x.name, k) ∈ sig) (free : Γ.Free x.name) (hb : b.Evaluable Γ k)
    (holds : I.Holds (.eq (.symbol x) b)) :
    Determines sig I Γ [.eq (.symbol x) b] (Γ.extend [(x.name, k)]) := by
  refine single fun p hp => ?_
  obtain ⟨d, hd, hknows, htouches⟩ := exists_definition hp fits hx free hb
  have hsymbol : (Term.symbol x).Proper sig k := ⟨hx, fun _ _ => trivial, trivial⟩
  obtain ⟨hsettle, hwk, hagrees⟩ := settle_of_define hp.state hp.agrees fits hd hsymbol
    (hb.proper hp.declared) holds
  exact ⟨p.add d, hsettle, knowing_extend hp hx free hwk hagrees hp.pending htouches hknows⟩

/-- A symbol of a word gets the value of a term in scope, or is confirmed to have it. -/
theorem assigned (fits : I.Fits sig) {x : Symbol} {w : Nat} {b : Term}
    (hx : (x.name, .bits w) ∈ sig) (hb : b.Evaluable Γ (.bits w))
    (holds : I.Holds (.eq (.symbol x) b)) :
    Determines sig I Γ [.eq (.symbol x) b] (Γ.extend [(x.name, .bits w)]) := by
  by_cases free : Γ.Free x.name
  · exact defined fits hx free hb holds
  · intro p hp
    have hknown : Γ x.name (.bits w) := by
      obtain ⟨k, hk⟩ := not_forall_not.1 free
      rwa [hp.state.functional _ _ _ hx (hp.declared _ _ hk)]
    have hsame : Γ.extend [(x.name, .bits w)] = Γ := by
      funext y j
      refine propext ⟨?_, Or.inl⟩
      rintro (hy | hy)
      · exact hy
      · cases List.mem_singleton.1 hy
        exact hknown
    rw [hsame]
    exact judged fits (.eq (.symbol hknown) hb) holds p hp

/-- Symbols of words get the values of terms in scope, one after another. -/
theorem assignments (fits : I.Fits sig) {ι : Type} {σ : ι → Symbol} {w : ι → Nat} {b : ι → Term}
    {vs : List ι} (hx : ∀ v ∈ vs, ((σ v).name, .bits (w v)) ∈ sig)
    (hb : ∀ v ∈ vs, (b v).Evaluable Γ (.bits (w v)))
    (holds : ∀ v ∈ vs, I.Holds (.eq (.symbol (σ v)) (b v))) :
    Determines sig I Γ (vs.map fun v => .eq (.symbol (σ v)) (b v))
      (Γ.extend (vs.map fun v => ((σ v).name, .bits (w v)))) := by
  induction vs generalizing Γ with
  | nil =>
    rw [List.map_nil, List.map_nil, Scope.extend_nil]
    exact nil
  | cons v rest ih =>
    rw [List.forall_mem_cons] at hx hb holds
    have hrest := ih hx.2 (fun u hu => (hb.2 u hu).extend [((σ v).name, .bits (w v))]) holds.2
    rw [Scope.extend_append] at hrest
    exact cons (assigned fits hx.1 hb.1 holds.1) hrest

/-! ### Arrays cell by cell -/

/-- The root that the first cell of an array makes. -/
def rootOf (x : String) (a d : Nat) : Memory := ⟨x, Int64.ofNat a, Int64.ofNat d, []⟩

/-- The first `n` cells of an array are known, and nothing else is known of it. -/
structure Filled (sig : Signature) (I : Interpretation) (Γ : Scope) (s : State) (x : String)
    (a d n : Nat) (q : Progress) : Prop where
  aware : q.Aware sig I Γ
  touches : s.Touches q.state x
  array : q.state.arrays[x]? = if n = 0 then none else some (rootOf x a d)
  cells : ∀ i : UInt64, (q.state.cells[(x, i)]?).isSome ↔ i.toNat < n

theorem filled_zero (hp : p.Knowing sig I Γ) {x : String} (free : Γ.Free x) (a d : Nat) :
    Filled sig I Γ p.state x a d 0 p := by
  obtain ⟨-, harray⟩ := hp.free x free
  refine ⟨hp.toAware, .refl _ _, harray, fun i => ⟨fun hsome => ?_, fun h => absurd h (by simp)⟩⟩
  obtain ⟨v, hv⟩ := Option.isSome_iff_exists.1 hsome
  obtain ⟨_, _, -, -, -, hroot⟩ := hp.state.cells x i v hv
  cases harray.symm.trans hroot

/-- The definition of the next cell. -/
theorem Filled.define {x : Symbol} {a d n : Nat} {b : Term}
    (h : Filled sig I Γ s x.name a d n q) (fits : I.Fits sig) (hx : (x.name, .array a d) ∈ sig)
    (pos : 0 < a) (narrow : a ≤ 64) (hn : n < 2 ^ a) (hb : b.Evaluable Γ (.bits d)) :
    ∃ i v : UInt64, i.toNat = n ∧
      q.state.define (.select (.symbol x) (.word a n)) b =
        .ok (some (.cell x.name (rootOf x.name a d) i v)) := by
  obtain ⟨i, hi, -, hnumber⟩ := h.aware.eval_bits fits (.word pos narrow hn)
  obtain ⟨v, hv, -⟩ := h.aware.eval_bits fits hb
  have hindex : i.toNat = n := by
    rw [I.denote_word, Meaning.number?_bits, BitVec.toNat_ofNat, Nat.mod_eq_of_lt hn] at hnumber
    exact (Option.some.inj hnumber).symm
  have hfree : q.state.cells[(x.name, i)]? = none := by
    rw [← Option.not_isSome_iff_eq_none, h.cells i, hindex]
    exact Nat.lt_irrefl n
  obtain ⟨τ, hτ, hof⟩ := h.aware.state.declared _ _ hx
  cases τ with
  | bits =>
    obtain ⟨_, heq, -⟩ := hof
    cases heq
  | array =>
    obtain ⟨_, _, ⟨⟩, rfl, rfl⟩ := hof
    refine ⟨i, v, hindex, ?_⟩
    have harray := h.array
    split_ifs at harray with hzero
    · simp [State.define, State.defineTerm, Term.select, State.defineSelect, State.defineCell, hτ,
        harray, hi, hv, Value.known, Value.word, rootOf, bind, Except.bind, pure, Except.pure]
    · simp [State.define, State.defineTerm, Term.select, State.defineSelect, State.defineCell, hτ,
        harray, hi, hv, hfree, State.lookup, Memory.isRoot, Value.known, Value.word, rootOf, bind,
        Except.bind, pure, Except.pure]

theorem Filled.settle {x : Symbol} {a d n : Nat} {b : Term}
    (h : Filled sig I Γ s x.name a d n q) (fits : I.Fits sig) (hx : (x.name, .array a d) ∈ sig)
    (free : Γ.Free x.name) (pos : 0 < a) (narrow : a ≤ 64) (hn : n < 2 ^ a)
    (hb : b.Evaluable Γ (.bits d))
    (holds : I.Holds (.eq (.select (.symbol x) (.word a n)) b)) :
    ∃ r, q.settle (.eq (.select (.symbol x) (.word a n)) b) = .ok r ∧
      Filled sig I Γ s x.name a d (n + 1) r := by
  obtain ⟨i, v, hi, hd⟩ := h.define fits hx pos narrow hn hb
  have hcell : (Term.select (.symbol x) (.word a n)).Proper sig (.bits d) := by
    have hevaluable : (Term.select (.symbol x) (.word a n)).Evaluable (fun y k => (y, k) ∈ sig)
        (.bits d) := .select (.symbol hx) (.word pos narrow hn)
    exact hevaluable.proper fun _ _ hy => hy
  obtain ⟨hsettle, hwk, hagrees⟩ := settle_of_define h.aware.state h.aware.agrees fits hd hcell
    (hb.proper h.aware.declared) holds
  have htouches := q.state.touches_add_cell x.name (rootOf x.name a d) i v
  refine ⟨_, hsettle, ⟨hwk, hagrees, h.aware.pending, h.aware.declared, fun y k hy => ?_⟩,
    h.touches.trans htouches, ?_, fun j => ?_⟩
  · exact htouches.knows (fun heq => free _ (heq ▸ hy)) (h.aware.known y k hy)
  · simp [Progress.add, State.add]
  · have hij : i = j ↔ j.toNat = n := by rw [← hi, ← UInt64.toNat_inj, eq_comm]
    have hroot : (rootOf x.name a d).root = x.name := rfl
    simp only [Progress.add, State.add, Std.HashMap.getElem?_insert, hroot, beq_iff_eq,
      Prod.mk.injEq, true_and, hij]
    split_ifs with hj
    · simp [hj]
    · rw [h.cells j]
      omega

/-- A new array gets all its cells. -/
theorem filled (fits : I.Fits sig) {x : Symbol} {a d : Nat} {b : Nat → Term}
    (hx : (x.name, .array a d) ∈ sig) (free : Γ.Free x.name) (pos : 0 < a) (narrow : a ≤ 64)
    (hb : ∀ i < 2 ^ a, (b i).Evaluable Γ (.bits d))
    (holds : ∀ i < 2 ^ a, I.Holds (.eq (.select (.symbol x) (.word a i)) (b i))) :
    Determines sig I Γ
      ((List.range (2 ^ a)).map fun i => .eq (.select (.symbol x) (.word a i)) (b i))
      (Γ.extend [(x.name, .array a d)]) := by
  intro p hp
  have hcells : ∀ n ≤ 2 ^ a, ∃ q, p.settleAll
      ((List.range n).map fun i => .eq (.select (.symbol x) (.word a i)) (b i)) = .ok q ∧
        Filled sig I Γ p.state x.name a d n q := by
    intro n
    induction n with
    | zero => exact fun _ => ⟨p, by simp [Progress.settleAll], filled_zero hp free a d⟩
    | succ n ih =>
      intro hn
      obtain ⟨q, hq, hfilled⟩ := ih (Nat.le_of_succ_le hn)
      obtain ⟨r, hr, hfilled'⟩ := hfilled.settle fits hx free pos narrow hn (hb n hn) (holds n hn)
      refine ⟨r, ?_, hfilled'⟩
      rw [Progress.settleAll_eq_foldlM] at hq ⊢
      rw [List.range_succ, List.map_append, List.foldlM_append, hq]
      exact (bind_pure _).trans hr
  obtain ⟨q, hq, hfilled⟩ := hcells (2 ^ a) (Nat.le_refl _)
  refine ⟨q, hq, knowing_extend hp hx free hfilled.aware.state hfilled.aware.agrees
    hfilled.aware.pending hfilled.touches ⟨.array (rootOf x.name a d), ?_, _, rfl, fun i hi => ?_⟩⟩
  · obtain ⟨τ, hτ, hof⟩ := hfilled.aware.state.declared _ _ hx
    cases τ with
    | bits =>
      obtain ⟨_, heq, -⟩ := hof
      cases heq
    | array => rw [State.symbol, hτ, hfilled.array, if_neg (by simp)]
  · exact (hfilled.cells i).2 hi

end Determines

/-! ## Formulas that are determined -/

@[simp] theorem assertedTerms_nil : assertedTerms [] = [] := rfl

@[simp] theorem assertedTerms_note {text : String} {f : Formula} :
    assertedTerms (.note text :: f) = assertedTerms f := rfl

@[simp] theorem assertedTerms_logic {x : Symbol} {f : Formula} :
    assertedTerms (.logic x :: f) = assertedTerms f := rfl

@[simp] theorem assertedTerms_declareBits {x : Symbol} {w : Numeral} {f : Formula} :
    assertedTerms (.declareBits x w :: f) = assertedTerms f := rfl

@[simp] theorem assertedTerms_declareArray {x : Symbol} {a d : Numeral} {f : Formula} :
    assertedTerms (.declareArray x a d :: f) = assertedTerms f := rfl

@[simp] theorem assertedTerms_assert {t : Term} {f : Formula} :
    assertedTerms (.assert t :: f) = t :: assertedTerms f := rfl

@[simp] theorem assertedTerms_append (f g : Formula) :
    assertedTerms (f ++ g) = assertedTerms f ++ assertedTerms g := List.filterMap_append

@[simp] theorem assertedTerms_map_assert {α : Type} (t : α → Term) (l : List α) :
    assertedTerms (l.map fun a => .assert (t a)) = l.map t := by
  rw [assertedTerms, List.filterMap_map, ← List.filterMap_eq_map]
  rfl

theorem assertedTerms_flatten (fs : List Formula) :
    assertedTerms fs.flatten = fs.flatMap assertedTerms := by
  induction fs with
  | nil => rfl
  | cons f rest ih => rw [List.flatten_cons, assertedTerms_append, ih, List.flatMap_cons]

theorem assertedTerms_of_silent {f : Formula} (h : ∀ t, Command.assert t ∉ f) :
    assertedTerms f = [] :=
  List.eq_nil_iff_forall_not_mem.2 fun t ht => h t (mem_assertedTerms.1 ht)

/-- After the declarations nothing is known. -/
theorem knowing_of_declareAll {f : Formula} (unique : (f.signature.map Prod.fst).Nodup)
    (h : declareAll f = .ok s) (I : Interpretation) :
    Progress.Knowing f.signature I (fun _ _ => False) { state := s } := by
  obtain ⟨hdeclares, -⟩ := State.declareCommands_spec h
  obtain ⟨hwk, hagrees⟩ := declareAll_spec unique h
  refine ⟨⟨hwk, hagrees I, rfl, fun _ _ hx => hx.elim, fun _ _ hx => hx.elim⟩, fun x _ => ?_⟩
  change s.values[x]? = none ∧ s.arrays[x]? = none
  rw [hdeclares.values, hdeclares.arrays]
  simp

theorem passes_nil (s : State) : passes s [] = .ok (.sat s) := by
  rw [passes]
  simp

/-- A formula whose assertions can be settled in order is satisfiable, and its model knows what
they define. -/
theorem solve_of_determines {f : Formula} (unique : (f.signature.map Prod.fst).Nodup)
    (h : Determines f.signature I (fun _ _ => False) (assertedTerms f) Δ) :
    ∃ q : Progress, solve f = .ok (.sat q.state) ∧ q.Knowing f.signature I Δ := by
  obtain ⟨s, hs⟩ := exists_declareAll unique
  obtain ⟨q, hq, hknows⟩ := h _ (knowing_of_declareAll unique hs I)
  refine ⟨q, ?_, hknows⟩
  rw [Progress.settleAll_eq_foldlM] at hq
  have hsolve : solve f = passes s (assertedTerms f) := by
    rw [solve, hs]
    rfl
  rw [hsolve]
  by_cases hempty : (assertedTerms f).isEmpty = true
  · rw [List.isEmpty_iff.1 hempty] at hq ⊢
    cases hq
    exact passes_nil s
  · have hpass : pass s (assertedTerms f) = .ok q := hq
    have hstuck : ¬ (q.pending.size = (assertedTerms f).length ∧
        q.state.definitions = s.definitions) := by
      rintro ⟨hsize, -⟩
      rw [hknows.pending, eq_comm] at hsize
      exact hempty (List.isEmpty_iff.2 (List.length_eq_zero_iff.1 hsize))
    rw [passes_eq hempty, hpass]
    simp only [if_neg hstuck]
    rw [hknows.pending]
    exact passes_nil q.state

/-- If one more assertion about known symbols is false, then there is a contradiction. -/
theorem solve_unsat_of_determines {f : Formula} {t : Term} (fits : I.Fits f.signature)
    (unique : (f.signature.map Prod.fst).Nodup)
    (h : Determines f.signature I (fun _ _ => False) (assertedTerms f) Δ)
    (ht : t.Evaluable Δ .truth) (fails : ¬ I.Holds t) :
    ∃ u, solve (f ++ [.assert t]) = .ok (.unsat u) := by
  have hsame : Formula.signature (f ++ [.assert t]) = f.signature := by simp
  obtain ⟨s, hs⟩ := exists_declareAll (f := f ++ [.assert t]) (by rwa [hsame])
  have hstart := knowing_of_declareAll (by rwa [hsame]) hs I
  rw [hsame] at hstart
  obtain ⟨q, hq, hknows⟩ := h _ hstart
  obtain ⟨u, hu⟩ := (hknows.settle_of_evaluable fits ht).2 fails
  have hterms : assertedTerms (f ++ [.assert t]) = assertedTerms f ++ [t] := by simp
  have hsolve : solve (f ++ [.assert t]) = passes s (assertedTerms f ++ [t]) := by
    rw [solve, hs, ← hterms]
    rfl
  have hpass : pass s (assertedTerms f ++ [t]) = .error (.contradiction u) := by
    rw [Progress.settleAll_eq_foldlM] at hq
    rw [pass, List.foldlM_append, hq]
    change q.settle t >>= _ = _
    rw [hu]
    rfl
  refine ⟨u, ?_⟩
  rw [hsolve, passes_eq (by simp), hpass]

end Propagation

end CycleCheck
