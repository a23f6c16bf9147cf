import CycleCheck.Proofs.Timeline.Calls
import Mathlib.Data.List.Nodup

/-!
Sorted blocks. If every variable has one sort, and each block declares what it writes and asserts
clauses over what it reads and writes, then the commands of a run of blocks declare each version
once, and every assertion uses versions that were given out before.
-/

namespace CycleCheck

/-- A block keeps its symbols and declares the names it writes, in order, and what it asserts are
clauses over the names it reads and those it has declared. -/
structure Block.Sorted (κ : String → Kind) (b : Block) : Prop where
  keeps : b.Keeps
  declares : ∀ (ρ ω : String → Symbol) (f : Formula),
    b.generate (.of b.reads ρ) (.of b.writes ω) = .ok f →
      f.signature = b.writes.map (fun x => ((ω x).name, κ x)) ∧
        f.Sorted fun y k => ∃ x ∈ b.reads, y = (ρ x).name ∧ k = κ x

namespace Timeline

variable {κ : String → Kind} {t t' t'' : Timeline} {b : Block} {f g : Formula}

/-- The versions given out so far, each with the sort of its variable. -/
def scope (κ : String → Kind) (t : Timeline) : Scope := fun y k =>
  ∃ x v, v < t.next x ∧ y = versionedName x v ∧ k = κ x

theorem scope_empty (y : String) (k : Kind) : ¬ scope κ {} y k := by
  rintro ⟨x, v, hv, -⟩
  simp [next] at hv

theorem scope_latest {x : String} (h : 0 < t.next x) : t.scope κ (t.latest x).name (κ x) :=
  ⟨x, t.next x - 1, by omega, rfl, rfl⟩

theorem not_scope_fresh (x : String) (k : Kind) : ¬ t.scope κ (t.fresh x).name k := by
  rintro ⟨y, v, hv, hname, -⟩
  obtain ⟨rfl, rfl⟩ := versionedName_injective hname
  exact Nat.lt_irrefl _ hv

theorem scope_advance {names : List String} {y : String} {k : Kind} :
    (t.advance names).scope κ y k ↔
      t.scope κ y k ∨ ∃ x ∈ names, y = (t.fresh x).name ∧ k = κ x := by
  constructor
  · rintro ⟨x, v, hv, rfl, rfl⟩
    rw [next_advance] at hv
    by_cases hold : v < t.next x
    · exact .inl ⟨x, v, hold, rfl, rfl⟩
    · split_ifs at hv with hx
      · obtain rfl : v = t.next x := by omega
        exact .inr ⟨x, hx, rfl, rfl⟩
      · exact absurd hv hold
  · rintro (⟨x, v, hv, rfl, rfl⟩ | ⟨x, hx, rfl, rfl⟩)
    · refine ⟨x, v, ?_, rfl, rfl⟩
      rw [next_advance]
      split_ifs <;> omega
    · refine ⟨x, t.next x, ?_, rfl, rfl⟩
      rw [next_advance, if_pos hx]
      exact Nat.lt_succ_self _

theorem fresh_injective {x y : String} (h : (t.fresh x).name = (t.fresh y).name) : x = y :=
  (versionedName_injective h).1

/-! ## Runs of blocks -/

section Runs

variable {bs : List Block} {fs : List Formula}

theorem Yields.applyAll_eq (h : t.Yields bs fs t') : t.applyAll bs = (t', .ok fs.flatten) := by
  induction h with
  | nil => rfl
  | cons first _ ih =>
    rw [applyAll, first]
    simp only [ih]
    rfl

theorem Yields.next_le (h : t.Yields bs fs t') (x : String) : t.next x ≤ t'.next x := by
  induction h with
  | nil => exact Nat.le_refl _
  | cons first _ ih =>
    obtain ⟨-, rfl, -⟩ := generate_of_apply first
    refine Nat.le_trans ?_ ih
    rw [next_advance]
    split_ifs <;> omega

theorem Yields.next_of_notMem (h : t.Yields bs fs t') {x : String}
    (hx : ∀ b ∈ bs, b.Keeps ∧ x ∉ b.writes) : t'.next x = t.next x := by
  induction h with
  | nil => rfl
  | cons first _ ih =>
    obtain ⟨⟨keeps, hfirst⟩, hrest⟩ := List.forall_mem_cons.1 hx
    rw [ih hrest, advance_of_apply keeps first, next_advance, if_neg hfirst]

end Runs

/-! ## Declarations of a run -/

/-- Commands between two timelines: they declare the versions given out between them, each once,
and assert clauses over versions in scope. -/
structure Extends (κ : String → Kind) (t : Timeline) (f : Formula) (t' : Timeline) : Prop where
  sorted : f.Sorted (t.scope κ)
  scope : ∀ y k, t'.scope κ y k ↔ t.scope κ y k ∨ (y, k) ∈ f.signature
  unique : (f.signature.map Prod.fst).Nodup
  fresh : ∀ y k k', (y, k) ∈ f.signature → ¬ t.scope κ y k'

theorem Extends.nil : Extends κ t [] t where
  sorted := trivial
  scope y k := by simp
  unique := List.nodup_nil
  fresh y k k' h := by simp at h

theorem Extends.append (h : Extends κ t f t') (h' : Extends κ t' g t'') :
    Extends κ t (f ++ g) t'' := by
  refine ⟨Formula.sorted_append.2 ⟨h.sorted, h'.sorted.mono fun y k => (h.scope y k).1⟩,
    fun y k => ?_, ?_, fun y k k' hy => ?_⟩
  · rw [h'.scope, h.scope, Formula.signature_append, List.mem_append, or_assoc]
  · rw [Formula.signature_append, List.map_append, List.nodup_append]
    refine ⟨h.unique, h'.unique, ?_⟩
    rintro x hx _ hx' rfl
    obtain ⟨⟨_, k⟩, hk, rfl⟩ := List.mem_map.1 hx
    obtain ⟨⟨_, k'⟩, hk', hname⟩ := List.mem_map.1 hx'
    cases hname
    exact h'.fresh _ k' k hk' ((h.scope _ k).2 (.inr hk))
  · rw [Formula.signature_append, List.mem_append] at hy
    rcases hy with hy | hy
    · exact h.fresh y k k' hy
    · exact fun hscope => h'.fresh y k k' hy ((h.scope y k').2 (.inl hscope))

/-- A sorted block extends the timeline it is applied to. -/
theorem extends_of_apply (hb : b.Sorted κ) (hwrites : b.writes.Nodup)
    (h : t.apply b = .ok (f, t')) : Extends κ t f t' := by
  obtain ⟨hgen, rfl, hreads⟩ := generate_of_apply h
  obtain ⟨hsig, hsorted⟩ := hb.declares _ _ f hgen
  have hmem : ∀ y k, (y, k) ∈ f.signature ↔ ∃ x ∈ b.writes, y = (t.fresh x).name ∧ k = κ x := by
    intro y k
    simp [hsig, eq_comm]
  refine ⟨hsorted.mono ?_, fun y k => ?_, ?_, fun y k k' hy => ?_⟩
  · rintro y k ⟨x, hx, rfl, rfl⟩
    exact scope_latest (hreads x hx)
  · rw [left_of_keeps hb.keeps, scope_advance, hmem]
  · rw [hsig, List.map_map]
    exact hwrites.map fun x y hxy => fresh_injective hxy
  · obtain ⟨x, -, rfl, -⟩ := (hmem y k).1 hy
    exact not_scope_fresh x k'

/-- The commands of a run of sorted blocks. -/
theorem Yields.extends {bs : List Block} {fs : List Formula} (h : t.Yields bs fs t')
    (hbs : ∀ b ∈ bs, b.Sorted κ ∧ b.writes.Nodup) : Extends κ t fs.flatten t' := by
  induction h with
  | nil => exact .nil
  | cons first _ ih =>
    obtain ⟨⟨hb, hwrites⟩, hrest⟩ := List.forall_mem_cons.1 hbs
    exact (extends_of_apply hb hwrites first).append (ih hrest)

end Timeline

end CycleCheck
