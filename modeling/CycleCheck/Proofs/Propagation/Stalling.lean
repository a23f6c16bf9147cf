import CycleCheck.Proofs.Propagation.Observation
import CycleCheck.Proofs.Propagation.Points

/-!
Formulas that stall. As long as some words have no value, an assertion that waits for one of them is
left pending. Where nothing else is left, the assertions of a formula take what is known from one
scope to another and then stall.
-/

namespace CycleCheck.Propagation

variable {sig sig' : Signature} {H : String → Prop} {I : Interpretation} {Γ Δ Θ : Scope} {V : View}
  {s s' : State} {p q : Progress} {a b c t : Term} {ts us : List Term} {x : Symbol}

/-! ## Terms without a value -/

/-- A state that knows what is declared, and in which some words have no value. -/
structure State.Veils (sig : Signature) (H : String → Prop) (s : State) : Prop where
  declared : ∀ x k, (x, k) ∈ sig → ∃ τ, s.sorts[x]? = some τ ∧ τ.Of k
  hidden : ∀ x : String, H x → s.values[x]? = none

/-- A constant or a word, which may be extended. -/
inductive Plain (sig : Signature) : Term → Prop where
  | constant {w : Nat} (narrow : w ≤ 64) (n : Nat) : Plain sig (.word w n)
  | bit (b : Bool) : Plain sig (.bit b)
  | word {x : Symbol} {w : Nat} (declared : (x.name, .bits w) ∈ sig) : Plain sig (.symbol x)
  | extended {x : Symbol} {n w : Nat} (narrow : w + n ≤ 64) (declared : (x.name, .bits w) ∈ sig) :
      Plain sig (.zeroExtend n (.symbol x))

/-- A term that has no value as long as some words have none. -/
inductive Veiled (sig : Signature) (H : String → Prop) : Term → Prop where
  | symbol {x : Symbol} {w : Nat} (declared : (x.name, .bits w) ∈ sig) (hidden : H x.name) :
      Veiled sig H (.symbol x)
  | extract {t : Term} (hi lo : Nat) (arg : Veiled sig H t) : Veiled sig H (.extract hi lo t)
  | zeroExtend {t : Term} (n : Nat) (arg : Veiled sig H t) : Veiled sig H (.zeroExtend n t)
  | add {a b : Term} (left : Veiled sig H a) (right : Plain sig b) : Veiled sig H (.add a b)
  | uge {a b : Term} (left : Veiled sig H a) (right : Plain sig b) : Veiled sig H (.uge a b)
  | eq {a b : Term} (left : Veiled sig H a) (right : Plain sig b) : Veiled sig H (.eq a b)
  | not {t : Term} (arg : Veiled sig H t) : Veiled sig H (.not t)
  | all {ts : List Term} (nonempty : ts ≠ []) (each : ∀ t ∈ ts, Veiled sig H t) :
      Veiled sig H (.all ts)
  | ite {c : Term} (test : Veiled sig H c) : Veiled sig H (.ite c (.bit true) (.bit false))
  | select {x : Symbol} {i : Term} {n d : Nat} (declared : (x.name, .array n d) ∈ sig)
      (index : Veiled sig H i) : Veiled sig H (.select (.symbol x) i)

theorem TermSort.Of.eq_bits {τ : TermSort} {w : Nat} (h : τ.Of (.bits w)) :
    τ = .bits (Int64.ofNat w) := by
  cases τ with
  | bits =>
    obtain ⟨_, ⟨⟩, rfl⟩ := h
    rfl
  | array =>
    obtain ⟨_, _, h, -⟩ := h
    cases h

theorem TermSort.Of.eq_array {τ : TermSort} {n d : Nat} (h : τ.Of (.array n d)) :
    τ = .array (Int64.ofNat n) (Int64.ofNat d) := by
  cases τ with
  | bits =>
    obtain ⟨_, h, -⟩ := h
    cases h
  | array =>
    obtain ⟨_, _, ⟨⟩, rfl, rfl⟩ := h
    rfl

theorem State.Veils.sort_word (h : s.Veils sig H) {y : String} {w : Nat}
    (hy : (y, .bits w) ∈ sig) : s.sorts[y]? = some (.bits (Int64.ofNat w)) := by
  obtain ⟨τ, hτ, hof⟩ := h.declared y _ hy
  rw [hτ, hof.eq_bits]

theorem State.Veils.sort_array (h : s.Veils sig H) {y : String} {n d : Nat}
    (hy : (y, .array n d) ∈ sig) :
    s.sorts[y]? = some (.array (Int64.ofNat n) (Int64.ofNat d)) := by
  obtain ⟨τ, hτ, hof⟩ := h.declared y _ hy
  rw [hτ, hof.eq_array]

theorem State.Veils.symbol_word (h : s.Veils sig H) {y : String} {w : Nat}
    (hy : (y, .bits w) ∈ sig) : s.symbol y = .ok .unknown ∨
      ∃ v, s.symbol y = .ok (.bits v (Int64.ofNat w)) := by
  simp only [State.symbol, h.sort_word hy]
  cases s.values[y]? with
  | none => exact .inl rfl
  | some v => exact .inr ⟨_, rfl⟩

theorem State.Veils.symbol_hidden (h : s.Veils sig H) {y : String} {w : Nat}
    (hy : (y, .bits w) ∈ sig) (hidden : H y) : s.symbol y = .ok .unknown := by
  simp only [State.symbol, h.sort_word hy, h.hidden y hidden]

theorem State.Veils.exists_symbol_array (h : s.Veils sig H) {y : String} {n d : Nat}
    (hy : (y, .array n d) ∈ sig) : ∃ v, s.symbol y = .ok v := by
  simp only [State.symbol, h.sort_array hy]
  cases s.arrays[y]? <;> exact ⟨_, rfl⟩

/-- The value of a plain term is not an error. -/
theorem State.Veils.exists_plain (h : s.Veils sig H) (ht : Plain sig t) :
    ∃ v, s.eval t = .ok v := by
  cases ht with
  | constant narrow n =>
    obtain ⟨v, hv⟩ := State.eval_word (s := s) narrow n
    exact ⟨_, hv⟩
  | bit b =>
    obtain ⟨v, hv⟩ := State.eval_bit (s := s) b
    exact ⟨_, hv⟩
  | word declared =>
    rcases h.symbol_word declared with hx | ⟨v, hx⟩
    · exact ⟨_, hx⟩
    · exact ⟨_, hx⟩
  | @extended x n w narrow declared =>
    have hn : n.toUInt64.toNat = n := by
      simpa using Nat.lt_of_le_of_lt (show n ≤ 64 by omega) (by decide : 64 < 2 ^ 64)
    have heval : s.eval (.zeroExtend n (.symbol x)) =
      s.evalAll [.symbol x] >>= s.applyOp .zeroExtend [⟨n.toUInt64⟩] := rfl
    rcases h.symbol_word declared with hx | ⟨v, hx⟩
    · rw [heval, State.evalAll_cons (a := .symbol x) hx rfl]
      exact ⟨_, rfl⟩
    · rw [heval, State.evalAll_cons (a := .symbol x) hx rfl]
      change ∃ u, s.strict .zeroExtend [⟨n.toUInt64⟩] [.bits v (Int64.ofNat w)] = .ok u
      rw [State.strict_zeroExtend, indexInt_eq, hn, if_neg (not_gt_of_le narrow)]
      exact ⟨_, rfl⟩

/-- An operator that needs all its arguments has no value if one of them has none. -/
theorem State.eval_unknown {op : Op} {indices : List Numeral} {args : List Term}
    {vals : List Value}
    (heval : s.eval (.app op indices args) = s.evalAll args >>= s.applyOp op indices)
    (hop : s.applyOp op indices vals =
      if vals.all Value.known then s.strict op indices vals else .ok .unknown)
    (hargs : s.evalAll args = .ok vals) (hunknown : vals.all Value.known = false) :
    s.eval (.app op indices args) = .ok .unknown := by
  rw [heval, hargs]
  change s.applyOp op indices vals = _
  rw [hop, hunknown]
  rfl

theorem State.evalAll_unknown (h : ∀ t ∈ ts, s.eval t = .ok .unknown) :
    s.evalAll ts = .ok (ts.map fun _ => .unknown) := by
  induction ts with
  | nil => rfl
  | cons t rest ih =>
    obtain ⟨ht, hrest⟩ := List.forall_mem_cons.1 h
    exact State.evalAll_cons ht (ih hrest)

theorem State.eval_all_unknown (nonempty : ts ≠ []) (h : ∀ t ∈ ts, s.eval t = .ok .unknown) :
    s.eval (.all ts) = .ok .unknown := by
  match ts with
  | [] => exact absurd rfl nonempty
  | [t] => exact h t (by simp)
  | t :: u :: rest =>
    have heval : s.eval (.all (t :: u :: rest)) =
      s.evalAll (t :: u :: rest) >>= s.applyOp .and [] := rfl
    have hnone : ∀ l : List Term, (l.map fun _ => Value.unknown).any
        (fun v => v.known && !v.truth) = false := by
      intro l
      simp [Value.known]
    rw [heval, State.evalAll_unknown h]
    change Except.ok (conjunction _) = _
    rw [conjunction, hnone]
    rfl

/-- A veiled term has no value. -/
theorem State.Veils.eval (h : s.Veils sig H) (ht : Veiled sig H t) : s.eval t = .ok .unknown := by
  induction ht with
  | symbol declared hidden => exact h.symbol_hidden declared hidden
  | extract _ _ _ ih | zeroExtend _ _ ih | not _ ih =>
    exact State.eval_unknown rfl rfl (State.evalAll_cons ih rfl) rfl
  | add _ right ih | uge _ right ih =>
    obtain ⟨v, hv⟩ := h.exists_plain right
    exact State.eval_unknown rfl rfl (State.evalAll_pair ih hv) rfl
  | eq _ right ih =>
    obtain ⟨v, hv⟩ := h.exists_plain right
    exact State.eval_eq ih hv
  | all nonempty _ ih => exact State.eval_all_unknown nonempty ih
  | @ite c _ ih =>
    rw [Term.ite, State.eval_ite_of_unknown ih rfl]
    rfl
  | select declared _ ih =>
    obtain ⟨v, hv⟩ := h.exists_symbol_array declared
    exact State.eval_unknown rfl rfl (State.evalAll_pair (a := .symbol _) hv ih)
      (by simp [Value.known])

/-! ## Assertions that wait -/

/-- An assertion that is left pending as long as some words have no value. -/
def Stuck (sig : Signature) (H : String → Prop) (t : Term) : Prop :=
  ∀ p : Progress, p.state.Veils sig H → p.settle t = .ok (p.postpone t)

theorem stuck_implies (ha : Veiled sig H a) (c : Term) : Stuck sig H (.implies a c) := by
  intro p hp
  rw [Term.implies, Progress.settle, hp.eval ha]
  rfl

theorem State.Veils.defineSymbol (h : s.Veils sig H) {w : Nat} (hx : (x.name, .bits w) ∈ sig)
    (ht : s.eval t = .ok .unknown) : s.defineSymbol x.name t = .ok none := by
  simp only [State.defineSymbol, h.sort_word hx, ht]
  split_ifs <;> rfl

theorem State.Veils.defineSelect (h : s.Veils sig H) {n d : Nat}
    (hx : (x.name, .array n d) ∈ sig) (ht : s.eval t = .ok .unknown) (other : Term) :
    s.defineSelect x.name t other = .ok none := by
  simp only [State.defineSelect, h.sort_array hx, ht]
  split_ifs <;> rfl

/-- An equality of a hidden word and a veiled term waits, if the term defines nothing either. -/
theorem stuck_eq {w : Nat} (hx : (x.name, .bits w) ∈ sig) (hidden : H x.name)
    (ht : Veiled sig H t)
    (hnone : ∀ s : State, s.Veils sig H → s.defineTerm t (.symbol x) = .ok none) :
    Stuck sig H (.eq (.symbol x) t) := by
  intro p hp
  have hsymbol : p.state.eval (.symbol x) = .ok .unknown := hp.symbol_hidden hx hidden
  have hdefine : p.state.define (.symbol x) t = .ok none := by
    rw [State.define, State.defineTerm, hp.defineSymbol hx (hp.eval ht)]
    exact hnone p.state hp
  rw [Term.eq, Progress.settle, Progress.equate, hdefine]
  change p.judge (.eq (.symbol x) t) = _
  rw [Progress.judge, State.eval_eq hsymbol (hp.eval ht)]
  rfl

theorem stuck_eq_ite {w : Nat} (hx : (x.name, .bits w) ∈ sig) (hidden : H x.name)
    (hc : Veiled sig H c) :
    Stuck sig H (.eq (.symbol x) (.ite c (.bit true) (.bit false))) :=
  stuck_eq hx hidden (.ite hc) fun _ _ => rfl

theorem stuck_eq_symbol {v w : Nat} {y : Symbol} (hx : (x.name, .bits w) ∈ sig)
    (hidden : H x.name) (hy : (y.name, .bits v) ∈ sig) (hidden' : H y.name) :
    Stuck sig H (.eq (.symbol x) (.symbol y)) :=
  stuck_eq hx hidden (.symbol hy hidden') fun _ hs =>
    hs.defineSymbol hy (hs.symbol_hidden hx hidden)

theorem stuck_eq_select {n d w : Nat} {y : Symbol} (hx : (x.name, .bits w) ∈ sig)
    (hidden : H x.name) (hy : (y.name, .array n d) ∈ sig) (ht : Veiled sig H t) :
    Stuck sig H (.eq (.symbol x) (.select (.symbol y) t)) :=
  stuck_eq hx hidden (.select hy ht) fun _ hs => hs.defineSelect hy (hs.eval ht) _

/-! ## What is pending -/

/-- More terms that wait before those that do. -/
def Progress.after (p : Progress) (waiting : Array Term) : Progress :=
  { p with pending := waiting ++ p.pending }

@[simp] theorem Progress.state_after (p : Progress) (w : Array Term) :
    (p.after w).state = p.state := rfl

theorem Progress.postpone_after (p : Progress) (w : Array Term) (t : Term) :
    (p.after w).postpone t = (p.postpone t).after w := by
  simp [Progress.after, Progress.postpone]

theorem Progress.judge_after (p : Progress) (w : Array Term) (t : Term) :
    (p.after w).judge t = (p.judge t).map (·.after w) := by
  unfold Progress.judge
  rw [Progress.state_after, Progress.postpone_after]
  cases p.state.eval t with
  | error e => rfl
  | ok v =>
    cases v with
    | bool b => cases b <;> rfl
    | _ => rfl

theorem Progress.equate_after (p : Progress) (w : Array Term) (t a b : Term) :
    (p.after w).equate t a b = (p.equate t a b).map (·.after w) := by
  unfold Progress.equate
  rw [Progress.state_after, Progress.judge_after]
  cases p.state.define a b with
  | error e => rfl
  | ok r => cases r <;> rfl

/-- What is pending does not matter for settling. -/
theorem Progress.settle_after (w : Array Term) :
    (∀ (p : Progress) (t : Term), (p.after w).settle t = (p.settle t).map (·.after w)) ∧
      ∀ (p : Progress) (ts : List Term),
        (p.after w).settleAll ts = (p.settleAll ts).map (·.after w) := by
  refine Progress.settle.mutual_induct
    (fun p t => (p.after w).settle t = (p.settle t).map (·.after w))
    (fun p ts => (p.after w).settleAll ts = (p.settleAll ts).map (·.after w))
    ?and ?failed ?waiting ?vacuous ?discharged ?eq ?other ?nil ?cons
  case and =>
    intro p indices args ih
    rw [Progress.settle, Progress.settle]
    exact ih
  case failed =>
    intro p indices a c e he
    rw [Progress.settle, Progress.settle, Progress.state_after, he]
    rfl
  case waiting =>
    intro p indices a c v hv hk
    simp only [Progress.settle, Progress.state_after, hv, hk, if_true, Progress.postpone_after]
    rfl
  case vacuous =>
    intro p indices a c v hv hk hf
    simp only [Progress.settle, Progress.state_after, hv, hk, hf, if_true]
    rfl
  case discharged =>
    intro p indices a c v hv hk hf ih
    simp only [Progress.settle, Progress.state_after, hv, hk, hf]
    exact ih
  case eq =>
    intro p indices a b
    rw [Progress.settle, Progress.settle]
    exact p.equate_after w _ a b
  case other =>
    intro p t h₁ h₂ h₃
    rw [Progress.settle.eq_4 p t h₁ h₂ h₃, Progress.settle.eq_4 (p.after w) t h₁ h₂ h₃]
    exact p.judge_after w t
  case nil =>
    intro p
    rw [Progress.settleAll, Progress.settleAll]
    rfl
  case cons =>
    intro p t rest iht ihs
    rw [Progress.settleAll, Progress.settleAll, iht]
    cases p.settle t with
    | error e => rfl
    | ok q => exact ihs q

/-- Terms that settling leaves as they are wait in their order. -/
theorem Progress.settleAll_postpone {S : List Term}
    (h : ∀ t ∈ S, ∀ q : Progress, q.state = p.state → q.settle t = .ok (q.postpone t)) :
    p.settleAll S = .ok { p with pending := p.pending ++ S.toArray } := by
  induction S generalizing p with
  | nil =>
    rw [Progress.settleAll]
    simp
  | cons t rest ih =>
    obtain ⟨ht, hrest⟩ := List.forall_mem_cons.1 h
    rw [Progress.settleAll, ht p rfl]
    change (p.postpone t).settleAll rest = _
    rw [ih (p := p.postpone t) hrest]
    simp [Progress.postpone]

theorem Progress.settleAll_pending {S : List Term} (h : ∀ t ∈ S, Stuck sig H t)
    (hp : p.state.Veils sig H) :
    p.settleAll S = .ok { p with pending := p.pending ++ S.toArray } :=
  Progress.settleAll_postpone fun t ht q hq => h t ht q (hq ▸ hp)

/-! ## Formulas that stall -/

/-- Assertions that say nothing new, one after the other. -/
theorem Determines.idle (h : ∀ t ∈ ts, Determines sig I Γ [t] Γ) : Determines sig I Γ ts Γ := by
  induction ts with
  | nil => exact .nil
  | cons t rest ih =>
    obtain ⟨ht, hrest⟩ := List.forall_mem_cons.1 h
    exact .cons ht (ih hrest)

/-- Settling assertions takes what is known from one scope to another, and what is left waits. -/
def Stalls (sig : Signature) (H : String → Prop) (I : Interpretation) (Γ : Scope) (ts : List Term)
    (Δ : Scope) : Prop :=
  ∀ p : Progress, p.Knowing sig I Γ → ∃ q : Progress, p.settleAll ts = .ok q ∧
    ({ state := q.state } : Progress).Knowing sig I Δ ∧ ∀ t ∈ q.pending.toList, Stuck sig H t

theorem Progress.Knowing.veils (hp : p.Knowing sig I Γ) (hidden : ∀ x, H x → Γ.Free x) :
    p.state.Veils sig H :=
  ⟨hp.state.declared, fun x hx => (hp.free x (hidden x hx)).1⟩

theorem Progress.Knowing.eq_start (hp : p.Knowing sig I Γ) : p = { state := p.state } := by
  obtain ⟨state, pending⟩ := p
  obtain rfl : pending = #[] := hp.pending
  rfl

namespace Stalls

theorem of_determines (h : Determines sig I Γ ts Δ) : Stalls sig H I Γ ts Δ := by
  intro p hp
  obtain ⟨q, hq, hknows⟩ := h p hp
  have heq := hknows.eq_start
  refine ⟨q, hq, heq ▸ hknows, ?_⟩
  rw [hknows.pending]
  simp

theorem append (h : Stalls sig H I Γ ts Δ) (h' : Stalls sig H I Δ us Θ) :
    Stalls sig H I Γ (ts ++ us) Θ := by
  intro p hp
  obtain ⟨q, hq, hknows, hwaits⟩ := h p hp
  obtain ⟨r, hr, hknows', hwaits'⟩ := h' _ hknows
  have hafter : q = ({ state := q.state } : Progress).after q.pending := by simp [Progress.after]
  refine ⟨r.after q.pending, ?_, hknows', ?_⟩
  · rw [Progress.settleAll_eq_foldlM] at hq ⊢
    rw [List.foldlM_append, hq]
    change us.foldlM Progress.settle q = _
    rw [← Progress.settleAll_eq_foldlM, hafter, (Progress.settle_after _).2, hr]
    rfl
  · simp only [Progress.after, Array.toList_append, List.mem_append]
    rintro t (ht | ht)
    · exact hwaits t ht
    · exact hwaits' t ht

theorem waiting (hidden : ∀ x, H x → Γ.Free x) (h : ∀ t ∈ ts, Stuck sig H t) :
    Stalls sig H I Γ ts Γ := by
  intro p hp
  have heq := hp.eq_start
  refine ⟨_, Progress.settleAll_pending h (hp.veils hidden), heq ▸ hp, ?_⟩
  simpa [hp.pending] using h

end Stalls

end CycleCheck.Propagation
