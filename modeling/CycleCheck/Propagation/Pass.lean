import CycleCheck.Propagation.Settle

/-!
One pass over assertions. The load of a pass is the weight of what it leaves pending; a pass that
does not leave everything as it was leaves less to do (`weightAll_pass_lt`), so passes come to an
end.
-/

namespace CycleCheck.Propagation

mutual

/-- The number of nodes of a term. -/
def weight : Term → Nat
  | .app _ _ args => weightAll args + 1
  | _ => 1

def weightAll : List Term → Nat
  | [] => 0
  | t :: rest => weight t + weightAll rest

end

/-- One pass over the work: the state after it and what is still pending. -/
def pass (s : State) (work : List Term) : Except Halt Progress :=
  work.foldlM Progress.settle ({ state := s } : Progress)

theorem exists_ok_of_bind {ε α β : Type} {x : Except ε α} {f : α → Except ε β} {b : β}
    (h : x >>= f = .ok b) : ∃ a, x = .ok a ∧ f a = .ok b :=
  match x, h with
  | .ok a, h => ⟨a, rfl, h⟩

theorem mapError_eq_ok {ε ε' α : Type} {x : Except ε α} {f : ε → ε'} {a : α} :
    x.mapError f = .ok a ↔ x = .ok a := by
  cases x with
  | error e => constructor <;> (intro h; cases h)
  | ok b => constructor <;> (intro h; cases h; rfl)

/-- Induction on settling that succeeds: a conjunction comes to its conjuncts, an implication waits
for its antecedent, holds without its consequent or comes to it, and every other term is settled by
a definition or by its value. -/
theorem Progress.settle_induction {P : Progress → Term → Progress → Prop}
    {Q : Progress → List Term → Progress → Prop}
    (and : ∀ p indices args q, Q p args q → P p (.app .and indices args) q)
    (waiting : ∀ p indices a c v, p.state.eval a = .ok v → v.known = false →
      P p (.app .implies indices [a, c]) (p.postpone (.app .implies indices [a, c])))
    (vacuous : ∀ p indices a c v, p.state.eval a = .ok v → v.known = true → v.truth = false →
      P p (.app .implies indices [a, c]) p)
    (discharged : ∀ p indices a c v q, p.state.eval a = .ok v → v.known = true → v.truth = true →
      P p c q → P p (.app .implies indices [a, c]) q)
    (eq : ∀ p indices a b q, p.equate (.app .eq indices [a, b]) a b = .ok q →
      P p (.app .eq indices [a, b]) q)
    (other : ∀ p t q, (∀ indices args, t = .app .and indices args → False) →
      (∀ indices a c, t = .app .implies indices [a, c] → False) →
      (∀ indices a b, t = .app .eq indices [a, b] → False) → p.judge t = .ok q → P p t q)
    (nil : ∀ p, Q p [] p)
    (cons : ∀ p t rest q r, p.settle t = .ok q → q.settleAll rest = .ok r → P p t q →
      Q q rest r → Q p (t :: rest) r) :
    (∀ p t q, p.settle t = .ok q → P p t q) ∧ ∀ p ts q, p.settleAll ts = .ok q → Q p ts q := by
  refine Progress.settle.mutual_induct (fun p t => ∀ q, p.settle t = .ok q → P p t q)
    (fun p ts => ∀ q, p.settleAll ts = .ok q → Q p ts q)
    ?and ?failed ?waiting ?vacuous ?discharged ?eq ?other ?nil ?cons
  case and =>
    intro p indices args ih q h
    rw [Progress.settle] at h
    exact and p indices args q (ih q h)
  case failed =>
    intro p indices a c e he q h
    rw [Progress.settle, he] at h
    cases h
  case waiting =>
    intro p indices a c v hv hk q h
    simp only [Progress.settle, hv, hk, if_true] at h
    cases h
    exact waiting p indices a c v hv (by simpa using hk)
  case vacuous =>
    intro p indices a c v hv hk ht q h
    simp only [Progress.settle, hv, hk, ht, if_true] at h
    cases h
    exact vacuous p indices a c v hv (by simpa using hk) (by simpa using ht)
  case discharged =>
    intro p indices a c v hv hk ht ih q h
    simp only [Progress.settle, hv, hk, ht] at h
    exact discharged p indices a c v q hv (by simpa using hk) (by simpa using ht) (ih q h)
  case eq =>
    intro p indices a b q h
    rw [Progress.settle] at h
    exact eq p indices a b q h
  case other =>
    intro p t h₁ h₂ h₃ q h
    rw [Progress.settle.eq_4 p t h₁ h₂ h₃] at h
    exact other p t q h₁ h₂ h₃ h
  case nil =>
    intro p q h
    rw [Progress.settleAll] at h
    cases h
    exact nil p
  case cons =>
    intro p t rest ih ihs q h
    rw [Progress.settleAll] at h
    obtain ⟨r, hr, h⟩ := exists_ok_of_bind h
    exact cons p t rest r q hr h (ih r hr) (ihs r q h)

def Progress.load (p : Progress) : Nat := weightAll p.pending.toList

theorem weightAll_append (a b : List Term) : weightAll (a ++ b) = weightAll a + weightAll b := by
  induction a with
  | nil => simp [weightAll]
  | cons t rest ih => simp [weightAll, ih, Nat.add_assoc]

theorem weight_pos (t : Term) : 0 < weight t := by
  cases t <;> simp [weight]

/-- `q` comes from `p` by terms of weight `w` and number `n` being left as they are, or its load
grows by less than their weight. -/
def Progress.Follows (p q : Progress) (w n : Nat) : Prop :=
  (q.load = p.load + w ∧ q.pending.size = p.pending.size + n ∧
      q.state.definitions = p.state.definitions) ∨
    q.load < p.load + w

theorem Progress.follows_postpone (p : Progress) (t : Term) :
    p.Follows (p.postpone t) (weight t) 1 := by
  left
  simp [Progress.load, Progress.postpone, weightAll_append, weightAll]

theorem Progress.follows_of_load_eq {p q : Progress} (t : Term) (h : q.load = p.load) :
    p.Follows q (weight t) 1 := by
  right
  have := weight_pos t
  omega

theorem Progress.Follows.load_le {p q : Progress} {w n : Nat} (h : p.Follows q w n) :
    q.load ≤ p.load + w := by
  rcases h with ⟨h, _⟩ | h <;> omega

theorem Progress.Follows.trans {p q r : Progress} {v w m n : Nat} (h : p.Follows q v m)
    (k : q.Follows r w n) : p.Follows r (v + w) (m + n) := by
  rcases h with ⟨h₁, h₂, h₃⟩ | h
  · rcases k with ⟨k₁, k₂, k₃⟩ | k
    · exact .inl ⟨by omega, by omega, by rw [k₃, h₃]⟩
    · exact .inr (by omega)
  · have := k.load_le
    exact .inr (by omega)

theorem Progress.follows_judge {p q : Progress} {t : Term} (h : p.judge t = .ok q) :
    p.Follows q (weight t) 1 := by
  unfold Progress.judge at h
  split at h
  · cases h
  · cases h; exact p.follows_postpone t
  · cases h; exact p.follows_of_load_eq t rfl
  · cases h
  · cases h

theorem Progress.follows_equate {p q : Progress} {t a b : Term} (h : p.equate t a b = .ok q) :
    p.Follows q (weight t) 1 := by
  unfold Progress.equate at h
  split at h
  · cases h
  · cases h; exact p.follows_of_load_eq t rfl
  · exact Progress.follows_judge h

/-- Settling a term leaves it as it is or leaves less; settling terms leaves no more than they
weigh. -/
theorem Progress.follows_settle_and_load_settleAll :
    (∀ (p : Progress) (t : Term), ∀ q, p.settle t = .ok q → p.Follows q (weight t) 1) ∧
      ∀ (p : Progress) (ts : List Term), ∀ q, p.settleAll ts = .ok q →
        q.load ≤ p.load + weightAll ts := by
  refine Progress.settle_induction ?and ?waiting ?vacuous ?discharged ?eq ?other ?nil ?cons
  case and =>
    intro p indices args q ih
    exact .inr (by simp only [weight]; omega)
  case waiting =>
    intro p indices a c v _ _
    exact p.follows_postpone _
  case vacuous =>
    intro p indices a c v _ _ _
    exact p.follows_of_load_eq _ rfl
  case discharged =>
    intro p indices a c v q _ _ _ ih
    have := ih.load_le
    exact .inr (by simp only [weight, weightAll]; omega)
  case eq =>
    intro p indices a b q h
    exact Progress.follows_equate h
  case other =>
    intro p t q _ _ _ h
    exact Progress.follows_judge h
  case nil =>
    intro p
    simp [weightAll]
  case cons =>
    intro p t rest q r _ _ ih ihs
    have := ih.load_le
    simp only [weightAll]
    omega

theorem follows_foldlM (work : List Term) {p q : Progress}
    (h : work.foldlM Progress.settle p = .ok q) :
    p.Follows q (weightAll work) work.length := by
  induction work generalizing p with
  | nil =>
    cases h
    exact .inl ⟨rfl, rfl, rfl⟩
  | cons t rest ih =>
    obtain ⟨r, hr, h⟩ := exists_ok_of_bind h
    have hfirst := Progress.follows_settle_and_load_settleAll.1 p t r hr
    have hall := hfirst.trans (ih h)
    rwa [Nat.add_comm 1] at hall

/-- A pass that does not leave everything as it was leaves less to do. -/
theorem weightAll_pass_lt {s : State} {work : List Term} {p : Progress} (h : pass s work = .ok p)
    (changed : ¬ (p.pending.size = work.length ∧ p.state.definitions = s.definitions)) :
    weightAll p.pending.toList < weightAll work := by
  rcases follows_foldlM work h with ⟨_, h₂, h₃⟩ | h
  · exact absurd ⟨by simpa using h₂, h₃⟩ changed
  · simpa [Progress.load, weightAll] using h

end CycleCheck.Propagation
