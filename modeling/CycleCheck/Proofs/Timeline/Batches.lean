import CycleCheck.Proofs.Timeline.SingleAssignment
import CycleCheck.Proofs.Timeline.Sorted
import Mathlib.Data.List.Induction

/-!
Blocks applied together. A call for one block that fails changes nothing. A call for several blocks
that fails gives back no commands either, but the blocks before the failing one stay applied: their
versions are given out although their declarations are thrown away. All other variables keep a
current version that is declared by the commands that were given back.
-/

namespace CycleCheck

/-- A block declares every symbol it leaves. -/
def Block.Declares (b : Block) : Prop :=
  ∀ (ins : Binding) (ω : String → Symbol) (f : Formula),
    b.generate ins (.of b.writes ω) = .ok f → ∀ x ∈ (b.leaves ins (.of b.writes ω)).names,
      ∃ k, ((ω x).name, k) ∈ f.signature

/-- A block declares nothing but what it leaves. -/
def Block.DeclaresOnly (b : Block) : Prop :=
  ∀ (ins : Binding) (ω : String → Symbol) (f : Formula),
    b.generate ins (.of b.writes ω) = .ok f → ∀ y k, (y, k) ∈ f.signature →
      ∃ x ∈ (b.leaves ins (.of b.writes ω)).names, y = (ω x).name

namespace Timeline

variable {t t' : Timeline} {b : Block} {bs : List Block} {f : Formula} {e : TimelineError}

/-! ## Several blocks -/

/-- The blocks before the first one that fails. -/
def started (t : Timeline) : List Block → List Block
  | [] => []
  | b :: rest =>
      match t.apply b with
      | .ok (_, t') => b :: started t' rest
      | .error _ => []

/-- A call for several blocks applies those before the first one that fails, and gives back their
commands only if none fails. -/
theorem applyAll_cases (t : Timeline) (bs : List Block) :
    ∃ fs t', t.Yields (t.started bs) fs t' ∧
      (t.started bs = bs ∧ t.applyAll bs = (t', .ok fs.flatten) ∨
        ∃ b rest e, bs = t.started bs ++ b :: rest ∧ t'.apply b = .error e ∧
          t.applyAll bs = (t', .error e)) := by
  induction bs generalizing t with
  | nil => exact ⟨[], t, .nil, .inl ⟨rfl, rfl⟩⟩
  | cons b rest ih =>
    cases h : t.apply b with
    | error e =>
      rw [started, applyAll, h]
      exact ⟨[], t, .nil, .inr ⟨b, rest, e, rfl, h, rfl⟩⟩
    | ok r =>
      obtain ⟨f, t₁⟩ := r
      obtain ⟨fs, t', hyields, hrest⟩ := ih t₁
      rw [started, applyAll, h]
      refine ⟨f :: fs, t', .cons h hyields, hrest.imp ?whole ?failed⟩
      case whole =>
        rintro ⟨hall, happly⟩
        simp only [hall, happly]
        exact ⟨trivial, rfl⟩
      case failed =>
        rintro ⟨c, after, e, hsplit, hfails, happly⟩
        refine ⟨c, after, e, ?_, hfails, ?_⟩
        · rw [List.cons_append, ← hsplit]
        · simp only [happly]
          rfl

/-- Blocks that yield commands are calls that all succeed. -/
theorem Yields.foldl_call {fs : List Formula} (h : t.Yields bs fs t') :
    bs.foldl call t = t' ∧ (t.succeeded bs).map Prod.fst = bs := by
  induction h with
  | nil => exact ⟨rfl, rfl⟩
  | cons first _ ih =>
    rw [List.foldl_cons, call, succeeded, first]
    exact ⟨ih.1, congrArg _ ih.2⟩

theorem Yields.applied_eq {fs : List Formula} (h : t.Yields bs fs t') :
    t'.applied = t.applied + bs.length := by
  obtain ⟨rfl, hall⟩ := h.foldl_call
  rw [(Timeline.foldl_call bs t).1, ← List.length_map Prod.fst, hall]

theorem Yields.next_eq {fs : List Formula} (h : t.Yields bs fs t') (x : String) :
    t'.next x = t.next x + (t.succeeded bs).countP fun c => x ∈ c.2 := by
  rw [← h.foldl_call.1, (Timeline.foldl_call bs t).2]

/-- The names for which blocks leave symbols when they are applied in order. -/
def given (t : Timeline) (bs : List Block) : List String := (t.succeeded bs).flatMap Prod.snd

theorem given_cons (h : t.apply b = .ok (f, t')) :
    t.given (b :: bs) = t.left b ++ t'.given bs := by
  rw [given, succeeded, h]
  rfl

/-- The names that blocks leave are those that have a new version. -/
theorem Yields.mem_given_iff {fs : List Formula} (h : t.Yields bs fs t') {x : String} :
    x ∈ t.given bs ↔ t.next x < t'.next x := by
  rw [h.next_eq, Nat.lt_add_right_iff_pos, List.countP_pos_iff, given, List.mem_flatMap]
  simp only [decide_eq_true_eq]

theorem Yields.next_of_notMem_given {fs : List Formula} (h : t.Yields bs fs t') {x : String}
    (hx : x ∉ t.given bs) : t'.next x = t.next x := by
  have hle := h.next_le x
  rw [h.mem_given_iff] at hx
  omega

/-- What a call for several blocks leaves behind when it fails: it is undone only if the first block
is the one that fails. -/
theorem applyAll_error (h : t.applyAll bs = (t', .error e)) :
    t'.applied = t.applied + (t.started bs).length ∧
      (∀ x, t'.next x =
        t.next x + (t.succeeded (t.started bs)).countP fun c => x ∈ c.2) ∧
      (t' = t ↔ t.started bs = []) := by
  obtain ⟨fs, t₁, hyields, ⟨-, happly⟩ | ⟨c, rest, e', -, -, happly⟩⟩ := applyAll_cases t bs
  · cases h.symm.trans happly
  · cases h.symm.trans happly
    refine ⟨hyields.applied_eq, hyields.next_eq, fun hsame => ?_, fun hnone => ?_⟩
    · have happlied := hyields.applied_eq
      rw [hsame] at happlied
      exact List.length_eq_zero_iff.1 (by omega)
    · rw [hnone] at hyields
      cases hyields
      rfl

/-! ## Declarations of current versions -/

theorem declares_of_apply (hb : b.Declares) (h : t.apply b = .ok (f, t')) {x : String}
    (hx : x ∈ t.left b) : ∃ k, ((t'.latest x).name, k) ∈ f.signature := by
  obtain ⟨hgen, rfl, -⟩ := generate_of_apply h
  rw [latest_advance hx]
  exact hb _ t.fresh f hgen x hx

/-- A variable that blocks do not leave keeps its version; one that they leave is declared. -/
theorem Yields.latest_cases {fs : List Formula} (h : t.Yields bs fs t')
    (hbs : ∀ b ∈ bs, b.Declares) (x : String) :
    x ∉ t.given bs ∨ ∃ k, ((t'.latest x).name, k) ∈ Formula.signature fs.flatten := by
  induction h with
  | nil => exact .inl (by simp [given, succeeded])
  | @cons t t₁ t' b bs f fs first rest ih =>
    obtain ⟨hb, hrest⟩ := List.forall_mem_cons.1 hbs
    rw [List.flatten_cons, Formula.signature_append, given_cons first, List.mem_append, not_or]
    rcases ih hrest with hnot | ⟨k, hk⟩
    · by_cases hx : x ∈ t.left b
      · obtain ⟨k, hk⟩ := declares_of_apply hb first hx
        refine .inr ⟨k, List.mem_append_left _ ?_⟩
        rwa [latest, rest.next_of_notMem_given hnot, ← latest]
      · exact .inl ⟨hx, hnot⟩
    · exact .inr ⟨k, List.mem_append_right _ hk⟩

/-- What blocks declare are versions given out by them. -/
theorem Yields.new_of_mem_signature {fs : List Formula} (h : t.Yields bs fs t')
    (hbs : ∀ b ∈ bs, b.DeclaresOnly) {y : String} {k : Kind}
    (hy : (y, k) ∈ Formula.signature fs.flatten) :
    ∃ x v, t.next x ≤ v ∧ v < t'.next x ∧ y = versionedName x v := by
  induction h with
  | nil => simp [Formula.signature] at hy
  | @cons t t₁ t' b bs f fs first rest ih =>
    obtain ⟨hb, hrest⟩ := List.forall_mem_cons.1 hbs
    obtain ⟨hgen, rfl, -⟩ := generate_of_apply first
    rw [List.flatten_cons, Formula.signature_append, List.mem_append] at hy
    rcases hy with hy | hy
    · obtain ⟨x, hx, rfl⟩ := hb _ t.fresh f hgen y k hy
      have hmem : x ∈ t.left b := hx
      have hle := rest.next_le x
      rw [next_advance, if_pos hmem] at hle
      exact ⟨x, t.next x, Nat.le_refl _, hle, rfl⟩
    · obtain ⟨x, v, hle, hlt, rfl⟩ := ih hrest hy
      refine ⟨x, v, Nat.le_trans ?_ hle, hlt, rfl⟩
      rw [next_advance]
      split_ifs <;> omega

/-! ## Sequences of calls -/

/-- A call of a timeline, for one block or for several at once. -/
inductive Request where
  | one (b : Block)
  | all (bs : List Block)

/-- The blocks of a call. -/
def Request.blocks : Request → List Block
  | .one b => [b]
  | .all bs => bs

/-- A timeline, the commands that its calls gave back, and the variables whose latest version was
given out by a call that gave back nothing. -/
structure Session where
  timeline : Timeline := {}
  formula : Formula := []
  lost : List String := []

/-- Blocks that are applied and give back their commands. -/
def Session.gain (σ : Session) (bs : List Block) (f : Formula) (t : Timeline) : Session where
  timeline := t
  formula := σ.formula ++ f
  lost := σ.lost.filter fun x => x ∉ σ.timeline.given bs

/-- Blocks that are applied although their commands are thrown away. -/
def Session.lose (σ : Session) (bs : List Block) (t : Timeline) : Session :=
  { σ with timeline := t, lost := σ.lost ++ σ.timeline.given bs }

def Session.call (σ : Session) : Request → Session
  | .one b =>
      match σ.timeline.apply b with
      | .ok (f, t) => σ.gain [b] f t
      | .error _ => σ
  | .all bs =>
      match σ.timeline.applyAll bs with
      | (t, .ok f) => σ.gain bs f t
      | (t, .error _) => σ.lose (σ.timeline.started bs) t

/-- A call applies all its blocks and gives back their commands, or it loses some of them. -/
theorem Session.call_cases (σ : Session) (r : Request) :
    (∃ fs t, σ.timeline.Yields r.blocks fs t ∧ σ.call r = σ.gain r.blocks fs.flatten t) ∨
      ∃ bs fs t, σ.timeline.Yields bs fs t ∧ σ.call r = σ.lose bs t := by
  cases r with
  | one b =>
    cases happly : σ.timeline.apply b with
    | error e =>
      refine .inr ⟨[], [], σ.timeline, .nil, ?_⟩
      rw [Session.call, happly]
      simp [Session.lose, given, succeeded]
    | ok r =>
      obtain ⟨f, t⟩ := r
      refine .inl ⟨[f], t, .cons happly .nil, ?_⟩
      rw [Session.call, happly]
      simp [Request.blocks]
  | all bs =>
    obtain ⟨fs, t, hyields, ⟨hall, happly⟩ | ⟨b, rest, e, -, -, happly⟩⟩ :=
      applyAll_cases σ.timeline bs
    · rw [hall] at hyields
      exact .inl ⟨fs, t, hyields, by rw [Session.call, happly, Request.blocks]⟩
    · exact .inr ⟨_, fs, t, hyields, by rw [Session.call, happly]⟩

/-- Every variable that is not lost has a current version that is declared. -/
def Session.Declares (σ : Session) : Prop :=
  ∀ x, 0 < σ.timeline.next x → x ∈ σ.lost ∨
    ∃ k, ((σ.timeline.latest x).name, k) ∈ σ.formula.signature

theorem Session.Declares.gain {σ : Session} (h : σ.Declares) {fs : List Formula}
    (hyields : σ.timeline.Yields bs fs t) (hbs : ∀ b ∈ bs, b.Declares) :
    (σ.gain bs fs.flatten t).Declares := by
  intro x hx
  change 0 < t.next x at hx
  change _ ∨ ∃ k, ((t.latest x).name, k) ∈ Formula.signature (σ.formula ++ fs.flatten)
  rw [Formula.signature_append]
  rcases hyields.latest_cases hbs x with hnot | ⟨k, hk⟩
  · have hnext := hyields.next_of_notMem_given hnot
    rw [hnext] at hx
    rcases h x hx with hlost | ⟨k, hk⟩
    · exact .inl (List.mem_filter.2 ⟨hlost, by simpa using hnot⟩)
    · refine .inr ⟨k, List.mem_append_left _ ?_⟩
      rwa [latest, hnext, ← latest]
  · exact .inr ⟨k, List.mem_append_right _ hk⟩

theorem Session.Declares.lose {σ : Session} (h : σ.Declares) {fs : List Formula}
    (hyields : σ.timeline.Yields bs fs t) : (σ.lose bs t).Declares := by
  intro x hx
  change 0 < t.next x at hx
  change x ∈ σ.lost ++ σ.timeline.given bs ∨
    ∃ k, ((t.latest x).name, k) ∈ σ.formula.signature
  rw [List.mem_append]
  by_cases hgiven : x ∈ σ.timeline.given bs
  · exact .inl (.inr hgiven)
  · have hnext := hyields.next_of_notMem_given hgiven
    rw [hnext] at hx
    rw [latest, hnext, ← latest]
    exact (h x hx).imp_left .inl

/-- The commands given back declare versions that were given out, and not those of lost variables. -/
structure Session.Exact (σ : Session) : Prop where
  old : ∀ y k, (y, k) ∈ σ.formula.signature →
    ∃ x v, v < σ.timeline.next x ∧ y = versionedName x v
  lost : ∀ x ∈ σ.lost, 0 < σ.timeline.next x ∧
    ∀ k, ((σ.timeline.latest x).name, k) ∉ σ.formula.signature

theorem Session.Exact.gain {σ : Session} (h : σ.Exact) {fs : List Formula}
    (hyields : σ.timeline.Yields bs fs t) (hbs : ∀ b ∈ bs, b.DeclaresOnly) :
    (σ.gain bs fs.flatten t).Exact := by
  refine ⟨fun y k hy => ?_, fun x hx => ?_⟩
  · change (y, k) ∈ Formula.signature (σ.formula ++ fs.flatten) at hy
    rw [Formula.signature_append, List.mem_append] at hy
    rcases hy with hy | hy
    · obtain ⟨x, v, hv, rfl⟩ := h.old y k hy
      exact ⟨x, v, Nat.lt_of_lt_of_le hv (hyields.next_le x), rfl⟩
    · obtain ⟨x, v, -, hv, rfl⟩ := hyields.new_of_mem_signature hbs hy
      exact ⟨x, v, hv, rfl⟩
  · obtain ⟨hlost, hnot⟩ := List.mem_filter.1 hx
    have hnext := hyields.next_of_notMem_given (of_decide_eq_true hnot)
    obtain ⟨hpos, hundeclared⟩ := h.lost x hlost
    change 0 < t.next x ∧ ∀ k, ((t.latest x).name, k) ∉ Formula.signature (σ.formula ++ fs.flatten)
    rw [latest, hnext]
    refine ⟨hpos, fun k hk => ?_⟩
    rw [Formula.signature_append, List.mem_append] at hk
    rcases hk with hk | hk
    · exact hundeclared k hk
    · -- what is declared now is no older version
      obtain ⟨y, v, hle, -, hname⟩ := hyields.new_of_mem_signature hbs hk
      obtain ⟨rfl, rfl⟩ := versionedName_injective hname
      omega

theorem Session.Exact.lose {σ : Session} (h : σ.Exact) {fs : List Formula}
    (hyields : σ.timeline.Yields bs fs t) : (σ.lose bs t).Exact := by
  refine ⟨fun y k hy => ?_, fun x hx => ?_⟩
  · obtain ⟨x, v, hv, rfl⟩ := h.old y k hy
    exact ⟨x, v, Nat.lt_of_lt_of_le hv (hyields.next_le x), rfl⟩
  · change x ∈ σ.lost ++ σ.timeline.given bs at hx
    rw [List.mem_append] at hx
    change 0 < t.next x ∧ ∀ k, ((t.latest x).name, k) ∉ σ.formula.signature
    by_cases hgiven : x ∈ σ.timeline.given bs
    · have hlt := hyields.mem_given_iff.1 hgiven
      refine ⟨Nat.zero_lt_of_lt hlt, fun k hk => ?_⟩
      obtain ⟨y, v, hv, hname⟩ := h.old _ k hk
      obtain ⟨rfl, rfl⟩ := versionedName_injective hname
      omega
    · rw [latest, hyields.next_of_notMem_given hgiven]
      exact h.lost x (hx.resolve_right hgiven)

/-- What holds of a session and is kept where blocks are applied, whether their commands are given
back or thrown away, holds after any calls. -/
theorem Session.foldl_induction {P : Session → Prop} {D : Block → Prop}
    (gain : ∀ (σ : Session) bs fs t, P σ → σ.timeline.Yields bs fs t → (∀ b ∈ bs, D b) →
      P (σ.gain bs fs.flatten t))
    (lose : ∀ (σ : Session) bs fs t, P σ → σ.timeline.Yields bs fs t → P (σ.lose bs t))
    {rs : List Request} (hrs : ∀ r ∈ rs, ∀ b ∈ r.blocks, D b) {σ : Session} (h : P σ) :
    P (rs.foldl Session.call σ) := by
  induction rs generalizing σ with
  | nil => exact h
  | cons r rest ih =>
    obtain ⟨hr, hrest⟩ := List.forall_mem_cons.1 hrs
    refine ih hrest ?_
    rcases σ.call_cases r with ⟨fs, t, hyields, hcall⟩ | ⟨bs, fs, t, hyields, hcall⟩
    · exact hcall ▸ gain σ _ fs t h hyields hr
    · exact hcall ▸ lose σ bs fs t h hyields

/-- Nothing is lost by a call whose blocks are all applied, or none of them. -/
theorem Session.lost_call {σ : Session} (h : σ.lost = []) {r : Request}
    (whole : ∀ bs, r = .all bs → σ.timeline.started bs = bs ∨ σ.timeline.started bs = []) :
    (σ.call r).lost = [] := by
  cases r with
  | one b =>
    rw [Session.call]
    split
    · simp [Session.gain, h]
    · exact h
  | all bs =>
    obtain ⟨fs, t, -, ⟨-, happly⟩ | ⟨b, rest, e, hsplit, -, happly⟩⟩ :=
      applyAll_cases σ.timeline bs
    · simp [Session.call, happly, Session.gain, h]
    · have hnone : σ.timeline.started bs = [] := by
        refine (whole bs rfl).resolve_left fun hall => ?_
        have hlength := congrArg List.length hsplit
        rw [hall, List.length_append, List.length_cons] at hlength
        omega
      simp [Session.call, happly, Session.lose, h, hnone, given, succeeded]

/-- The current version of a variable is the latest one that was given out. -/
theorem eq_latest_of_current {x : String} {s : Symbol} (h : t.current x = .ok s) :
    0 < t.next x ∧ s = t.latest x := by
  rcases t.current_cases x with ⟨heq, hpos⟩ | ⟨heq, -⟩ | ⟨-, e, heq, -⟩
  all_goals
    rw [heq] at h
    cases h
  exact ⟨hpos, rfl⟩

/-- A call for several blocks that fails leaves the timeline as it was exactly if its first block
fails. In any sequence of calls of blocks that declare what they leave, the current symbol of a
variable is declared by the commands given back, unless it was lost, and if blocks declare nothing
else it is not declared then. Nothing is lost if every call for several blocks applies all of them
or none. -/
theorem declares_current_of_calls {rs : List Request}
    (declares : ∀ r ∈ rs, ∀ b ∈ r.blocks, b.Declares) :
    (∀ (t t' : Timeline) bs e, t.applyAll bs = (t', .error e) →
      t'.applied = t.applied + (t.started bs).length ∧
      (∀ x, t'.next x =
        t.next x + (t.succeeded (t.started bs)).countP fun c => x ∈ c.2) ∧
      (t' = t ↔ t.started bs = [])) ∧
    (∀ x s, (rs.foldl Session.call {}).timeline.current x = .ok s →
      x ∈ (rs.foldl Session.call {}).lost ∨
        ∃ k, (s.name, k) ∈ (rs.foldl Session.call {}).formula.signature) ∧
    ((∀ r ∈ rs, ∀ b ∈ r.blocks, b.DeclaresOnly) → ∀ x ∈ (rs.foldl Session.call {}).lost,
      ∀ s, (rs.foldl Session.call {}).timeline.current x = .ok s →
        ∀ k, (s.name, k) ∉ (rs.foldl Session.call {}).formula.signature) ∧
    ((∀ pre bs post, rs = pre ++ .all bs :: post →
        (pre.foldl Session.call {}).timeline.started bs = bs ∨
          (pre.foldl Session.call {}).timeline.started bs = []) →
      (rs.foldl Session.call {}).lost = []) := by
  refine ⟨fun _ _ _ _ => applyAll_error, fun x s hs => ?declared, fun only x hx s hs => ?lost,
    fun whole => ?kept⟩
  case declared =>
    have hempty : ({} : Session).Declares := fun x hx => by simp [next] at hx
    obtain ⟨hpos, rfl⟩ := eq_latest_of_current hs
    exact Session.foldl_induction (fun _ _ _ _ h => h.gain) (fun _ _ _ _ h => h.lose) declares hempty
      x hpos
  case lost =>
    have hempty : ({} : Session).Exact := ⟨by simp [Formula.signature], by simp⟩
    obtain ⟨-, rfl⟩ := eq_latest_of_current hs
    exact ((Session.foldl_induction (fun _ _ _ _ h => h.gain) (fun _ _ _ _ h => h.lose) only
      hempty).lost x hx).2
  case kept =>
    clear declares
    induction rs using List.reverseRecOn with
    | nil => rfl
    | append_singleton rs r ih =>
      rw [List.foldl_append]
      refine Session.lost_call (ih fun pre bs post hsplit => ?_) fun bs hr => ?_
      · exact whole pre bs (post ++ [r]) (by rw [hsplit]; simp)
      · exact whole rs bs [] (by rw [hr])

theorem declares_reader (x : String) : (reader x).Declares := by
  simp [Block.Declares, reader]

theorem declares_pin (x : String) (w : Int) (v : UInt64) : (Block.pin x w v).Declares := by
  intro ins ω f hf y hy
  obtain rfl : y = x := by simpa [Block.pin] using hy
  obtain ⟨d, hd, hf⟩ := Propagation.exists_ok_of_bind hf
  obtain ⟨c, -, hf⟩ := Propagation.exists_ok_of_bind hf
  cases hf
  have hwrites : y ∈ (Block.pin y w v).writes := List.mem_singleton_self y
  rw [Propagation.mapError_eq_ok, Binding.symbol_of hwrites, Command.bits?] at hd
  split_ifs at hd
  cases hd
  exact ⟨_, List.mem_cons_self⟩

/-- A pin on a new timeline, and a reader of another name after it. -/
theorem pin_then_reader : ∃ f, Timeline.apply {} (.pin "A" 8 1) = .ok (f, Timeline.advance {} ["A"]) ∧
    (Timeline.advance {} ["A"]).apply (reader "B") = .error (.undefinedBeforeUse "B") ∧
    (Timeline.advance {} ["A"]).current "A" = .ok ⟨"A_0"⟩ := by
  obtain ⟨f, hpin, -, -⟩ := exists_apply_pin (t := {}) (x := "A") (by decide) (w := 8) (by decide)
    (by decide) 1#8
  have hnone : ∀ x, ({} : Timeline).next x = 0 := fun x => by simp [next]
  refine ⟨f, hpin, reader_fails (by simp [next_advance, hnone]), ?_⟩
  rw [current_eq (by decide) (by simp [next_advance]), latest_advance (by simp), fresh, hnone]
  rfl

/-- The version of the pin is given out, and its declaration is thrown away. -/
theorem applyAll_keeps_versions : ∃ t : Timeline,
    Timeline.applyAll {} [.pin "A" 8 1, reader "B"] = (t, .error (.undefinedBeforeUse "B")) ∧
      t.applied ≠ Timeline.applied {} ∧ t.current "A" = .ok ⟨"A_0"⟩ ∧
      (Session.call {} (.all [.pin "A" 8 1, reader "B"])).timeline.current "A" = .ok ⟨"A_0"⟩ ∧
      (Session.call {} (.all [.pin "A" 8 1, reader "B"])).formula = [] := by
  obtain ⟨f, hpin, hfails, hcurrent⟩ := pin_then_reader
  have hall : Timeline.applyAll {} [.pin "A" 8 1, reader "B"] =
      (Timeline.advance {} ["A"], .error (.undefinedBeforeUse "B")) := by
    rw [applyAll, hpin]
    simp only [applyAll, hfails]
    rfl
  refine ⟨_, hall, by simp [advance], hcurrent, ?_, ?_⟩
  · rw [Session.call, hall]
    exact hcurrent
  · rw [Session.call, hall]
    rfl

/-- After a pin, two blocks of which the first one fails leave the pinned version as it was. -/
theorem declares_current_of_calls_pin :
    ∃ k, ("A_0", k) ∈ ([Request.one (.pin "A" 8 1), .all [reader "B", .pin "A" 8 2]].foldl
      Session.call {}).formula.signature := by
  obtain ⟨f, hpin, hfails, hcurrent⟩ := pin_then_reader
  have hfirst : Session.call {} (.one (.pin "A" 8 1)) =
      { timeline := Timeline.advance {} ["A"], formula := f } := by
    rw [Session.call, hpin]
    simp [Session.gain]
  have hsecond : (Timeline.advance {} ["A"]).applyAll [reader "B", .pin "A" 8 2] =
      (Timeline.advance {} ["A"], .error (.undefinedBeforeUse "B")) := by
    rw [applyAll, hfails]
  have hnone : (Timeline.advance {} ["A"]).started [reader "B", .pin "A" 8 2] = [] := by
    rw [started, hfails]
  have hdeclared := @declares_current_of_calls [.one (.pin "A" 8 1), .all [reader "B", .pin "A" 8 2]]
    (by simp [Request.blocks, declares_pin, declares_reader])
  have hlast : [Request.one (.pin "A" 8 1), .all [reader "B", .pin "A" 8 2]].foldl Session.call {} =
      { timeline := Timeline.advance {} ["A"], formula := f } := by
    rw [List.foldl_cons, List.foldl_cons, hfirst]
    simp [Session.call, Session.lose, hsecond, hnone, given, succeeded]
  rw [hlast] at hdeclared ⊢
  exact (hdeclared.2.1 "A" ⟨"A_0"⟩ hcurrent).resolve_left (by simp)

end Timeline

end CycleCheck
