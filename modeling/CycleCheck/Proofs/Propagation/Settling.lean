import CycleCheck.Proofs.Propagation.Definition

/-!
Settling assertions. The interpretations of a progress are those that agree with its state and
make its pending terms true. Settling a term keeps exactly those of them that make the term true,
and a contradiction means that none of them does. The same follows for a pass and for all passes.
-/

namespace CycleCheck.Propagation

variable {sig : Signature} {bound : Nat}

/-- A well sorted boolean term with zero extensions below a bound. -/
def AssertableBelow (bound : Nat) (sig : Signature) (t : Term) : Prop :=
  t.HasKind sig .truth ∧ t.ExtensionsBelow bound

/-- A well sorted boolean term without overlong extensions. -/
def Assertable (sig : Signature) (t : Term) : Prop :=
  t.HasKind sig .truth ∧ t.ExtensionsBelow extensionBound

/-- What is known and what is pending is well sorted. -/
structure Progress.WellKinded (p : Progress) (sig : Signature) : Prop where
  state : p.state.WellKinded sig
  pending : ∀ t ∈ p.pending.toList, Assertable sig t

/-- An interpretation agrees with what is known and makes true what is pending. -/
def Progress.Admits (p : Progress) (I : Interpretation) : Prop :=
  p.state.Agrees I ∧ ∀ t ∈ p.pending.toList, I.Holds t

/-- The outcome of settling what says `P`: of the interpretations admitted before exactly those
with `P` are admitted after, and there are none if there is a contradiction. -/
def Progress.Settled (sig : Signature) (p : Progress) (P : Interpretation → Prop) :
    Except Halt Progress → Prop
  | .ok q => q.WellKinded sig ∧ ∀ I : Interpretation, I.Fits sig → (q.Admits I ↔ p.Admits I ∧ P I)
  | .error (.contradiction _) => ∀ I : Interpretation, I.Fits sig → p.Admits I → ¬ P I
  | .error (.failed _) => True

theorem Progress.settled_bind {p : Progress} {P Q : Interpretation → Prop}
    {x : Except Halt Progress} {f : Progress → Except Halt Progress} (hx : p.Settled sig P x)
    (hf : ∀ q : Progress, q.WellKinded sig → q.Settled sig Q (f q)) :
    p.Settled sig (fun I => P I ∧ Q I) (x >>= f) := by
  match x, hx with
  | .error (.failed _), _ => trivial
  | .error (.contradiction _), hx => exact fun I fits hp hPQ => hx I fits hp hPQ.1
  | .ok q, ⟨hq, hadmits⟩ =>
    have hfq := hf q hq
    change p.Settled sig _ (f q)
    match hr : f q with
    | .error (.failed _) => trivial
    | .error (.contradiction _) =>
      rw [hr] at hfq
      exact fun I fits hp hPQ => hfq I fits ((hadmits I fits).2 ⟨hp, hPQ.1⟩) hPQ.2
    | .ok r =>
      rw [hr] at hfq
      refine ⟨hfq.1, fun I fits => ?_⟩
      rw [hfq.2 I fits, hadmits I fits, and_assoc]

theorem Progress.Settled.congr {p : Progress} {P Q : Interpretation → Prop}
    {x : Except Halt Progress} (hx : p.Settled sig P x)
    (h : ∀ I : Interpretation, I.Fits sig → p.Admits I → (P I ↔ Q I)) : p.Settled sig Q x := by
  match x, hx with
  | .error (.failed _), _ => trivial
  | .error (.contradiction _), hx =>
    exact fun I fits hp hQ => hx I fits hp ((h I fits hp).2 hQ)
  | .ok q, ⟨hq, hadmits⟩ =>
    exact ⟨hq, fun I fits => (hadmits I fits).trans (and_congr_right (h I fits))⟩

/-! ## Parts of assertions -/

theorem AssertableBelow.of_and {indices : List Numeral} {args : List Term}
    (h : AssertableBelow bound sig (.app .and indices args)) :
    ∀ t ∈ args, AssertableBelow bound sig t := by
  obtain ⟨ks, hks, rank⟩ := h.1
  intro t ht
  obtain ⟨k, hk, hkind⟩ := Term.HaveKinds.mem hks ht
  obtain rfl := (rank.of_connective (by simp)).2 k hk
  exact ⟨hkind, Term.allExtensionsBelow_iff.1 h.2.2 t ht⟩

/-- The two sides of an equality have one sort. -/
theorem AssertableBelow.of_eq {indices : List Numeral} {a b : Term}
    (h : AssertableBelow bound sig (.app .eq indices [a, b])) :
    ∃ k, a.HasKind sig k ∧ b.HasKind sig k ∧ a.ExtensionsBelow bound ∧ b.ExtensionsBelow bound := by
  obtain ⟨ks, hks, rank⟩ := h.1
  obtain ⟨-, k, hsame⟩ := rank.of_equality (by simp)
  obtain ⟨ka, _, rfl, hka, kb, _, rfl, hkb, -⟩ := hks
  obtain ⟨rfl, rfl⟩ : ka = k ∧ kb = k := ⟨hsame ka (by simp), hsame kb (by simp)⟩
  exact ⟨_, hka, hkb, h.2.2.1, h.2.2.2.1⟩

theorem AssertableBelow.of_implies {indices : List Numeral} {a c : Term}
    (h : AssertableBelow bound sig (.app .implies indices [a, c])) :
    AssertableBelow bound sig a ∧ AssertableBelow bound sig c := by
  obtain ⟨ks, hks, rank⟩ := h.1
  obtain ⟨rfl, -⟩ := rank.of_implies
  obtain ⟨ha, hc⟩ := Term.haveKinds_pair.1 hks
  exact ⟨⟨ha, h.2.2.1⟩, ⟨hc, h.2.2.2.1⟩⟩

theorem Assertable.of_and {indices : List Numeral} {args : List Term}
    (h : Assertable sig (.app .and indices args)) : ∀ t ∈ args, Assertable sig t :=
  AssertableBelow.of_and h

theorem Assertable.of_implies {indices : List Numeral} {a c : Term}
    (h : Assertable sig (.app .implies indices [a, c])) : Assertable sig a ∧ Assertable sig c :=
  AssertableBelow.of_implies h

/-! ## One term -/

theorem Progress.settled_self {p : Progress} (wk : p.WellKinded sig) {P : Interpretation → Prop}
    (h : ∀ I : Interpretation, I.Fits sig → p.Admits I → P I) : p.Settled sig P (.ok p) :=
  ⟨wk, fun I fits => ⟨fun hp => ⟨hp, h I fits hp⟩, fun hp => hp.1⟩⟩

theorem Progress.settled_postpone {p : Progress} (wk : p.WellKinded sig) {t : Term}
    (ht : Assertable sig t) : p.Settled sig (fun I => I.Holds t) (.ok (p.postpone t)) := by
  refine ⟨⟨wk.state, ?_⟩, fun I _ => ?_⟩
  · intro u hu
    simp only [Progress.postpone, Array.toList_push, List.mem_append, List.mem_singleton] at hu
    rcases hu with hu | rfl
    · exact wk.pending u hu
    · exact ht
  · simp only [Progress.Admits, Progress.postpone, Array.toList_push, List.forall_mem_append,
      List.forall_mem_singleton, and_assoc]

/-- A term is settled by its value. -/
theorem Progress.settled_judge {p : Progress} (wk : p.WellKinded sig) {t : Term}
    (ht : Assertable sig t) : p.Settled sig (fun I => I.Holds t) (p.judge t) := by
  have hsaid : ∀ b, p.state.eval t = .ok (.bool b) → ∀ I : Interpretation, I.Fits sig →
      p.Admits I → I.denote t = .truth b := by
    intro b hb I fits hp
    exact (State.eval_stands wk.state fits hp.1 ht.1 ht.2 hb).2
  unfold Progress.judge
  split
  · trivial
  · exact Progress.settled_postpone wk ht
  · next hv => exact Progress.settled_self wk (hsaid true hv)
  · next hv =>
    intro I fits hp htrue
    cases (hsaid false hv I fits hp).symm.trans htrue
  · trivial

/-- An equality is settled by a definition of one of its sides, or by its value. -/
theorem Progress.settled_equate {p : Progress} (wk : p.WellKinded sig) {indices : List Numeral}
    {a b : Term} (ht : Assertable sig (.app .eq indices [a, b])) :
    p.Settled sig (fun I => I.Holds (.app .eq indices [a, b]))
      (p.equate (.app .eq indices [a, b]) a b) := by
  unfold Progress.equate
  split
  · trivial
  · next f hf =>
    obtain ⟨k, hka, hkb, hza, hzb⟩ := AssertableBelow.of_eq ht
    obtain ⟨hwk, hag⟩ := State.define_spec hf wk.state hka hkb hza hzb
    refine ⟨⟨hwk, wk.pending⟩, fun I fits => ?_⟩
    simp only [Progress.Admits, Progress.add, hag I fits, Interpretation.holds_eq]
    tauto
  · exact Progress.settled_judge wk ht

/-- Settling a term keeps the interpretations that make it true. -/
theorem Progress.settled_settle_and_settleAll :
    (∀ (p : Progress) (t : Term), p.WellKinded sig → Assertable sig t →
      p.Settled sig (fun I => I.Holds t) (p.settle t)) ∧
    ∀ (p : Progress) (ts : List Term), p.WellKinded sig → (∀ t ∈ ts, Assertable sig t) →
      p.Settled sig (fun I => ∀ t ∈ ts, I.Holds t) (p.settleAll ts) := by
  refine Progress.settle.mutual_induct
    (fun p t => p.WellKinded sig → Assertable sig t →
      p.Settled sig (fun I => I.Holds t) (p.settle t))
    (fun p ts => p.WellKinded sig → (∀ t ∈ ts, Assertable sig t) →
      p.Settled sig (fun I => ∀ t ∈ ts, I.Holds t) (p.settleAll ts))
    ?and ?failed ?waiting ?vacuous ?discharged ?eq ?other ?nil ?cons
  case and =>
    intro p indices args ih wk ht
    rw [Progress.settle]
    exact (ih wk ht.of_and).congr fun I _ _ => I.holds_and.symm
  case failed =>
    intro p indices a c e he _ _
    rw [Progress.settle, he]
    trivial
  case waiting =>
    intro p indices a c v hv hk wk ht
    simp only [Progress.settle, hv, hk, if_true]
    exact Progress.settled_postpone wk ht
  case vacuous =>
    intro p indices a c v hv hk hf wk ht
    obtain ⟨ha, hc⟩ := ht.of_implies
    simp only [Progress.settle, hv, hk, hf, if_true]
    refine Progress.settled_self wk fun I fits hp => ?_
    have hstands := State.eval_stands wk.state fits hp.1 ha.1 ha.2 hv
    rw [I.holds_implies, I.holds_iff_isTrue (t := a),
      hstands.isTrue_eq (I.kind_denote fits a _ ha.1) (by simpa using hk)]
    intro htrue
    simp [htrue] at hf
  case discharged =>
    intro p indices a c v hv hk hf ih wk ht
    obtain ⟨ha, hc⟩ := ht.of_implies
    simp only [Progress.settle, hv, hk, hf]
    refine (ih wk hc).congr fun I fits hp => ?_
    have hstands := State.eval_stands wk.state fits hp.1 ha.1 ha.2 hv
    rw [I.holds_implies, I.holds_iff_isTrue (t := a),
      hstands.isTrue_eq (I.kind_denote fits a _ ha.1) (by simpa using hk)]
    simp only [Bool.not_eq_true', Bool.not_eq_false] at hf
    simp [hf]
  case eq =>
    intro p indices a b wk ht
    rw [Progress.settle]
    exact Progress.settled_equate wk ht
  case other =>
    intro p t h₁ h₂ h₃ wk ht
    rw [Progress.settle.eq_4 p t h₁ h₂ h₃]
    exact Progress.settled_judge wk ht
  case nil =>
    intro p wk _
    rw [Progress.settleAll]
    exact Progress.settled_self wk (by simp)
  case cons =>
    intro p t rest iht ihs wk hts
    rw [Progress.settleAll]
    have hbind := Progress.settled_bind (iht wk (hts t List.mem_cons_self))
      (fun q hq => ihs q hq (fun u hu => hts u (List.mem_cons_of_mem t hu)))
    exact hbind.congr fun I _ _ => by rw [List.forall_mem_cons]

end CycleCheck.Propagation
