import CycleCheck.Proofs.Timeline.Calls

/-!
Single assignment. In any sequence of calls of blocks, some of which fail, the number of the version
that a writer gets is the number of calls so far that left a symbol for the name. So no symbol is
handed out twice for writing and a reader gets the symbol of the latest writer, as long as the
blocks leave the symbols that they are handed. A block that takes one away makes the next writer of
the name get it again.
-/

namespace CycleCheck.Timeline

variable {t : Timeline} {b : Block}

/-! ## Sequences of calls -/

/-- The timeline after a call. A call that fails leaves it as it was. -/
def call (t : Timeline) (b : Block) : Timeline :=
  match t.apply b with
  | .ok (_, t') => t'
  | .error _ => t

/-- The blocks of the calls that succeed, in order, each with the names for which it leaves
symbols. -/
def succeeded (t : Timeline) : List Block → List (Block × List String)
  | [] => []
  | b :: rest =>
      match t.apply b with
      | .ok (_, t') => (b, t.left b) :: succeeded t' rest
      | .error _ => succeeded t rest

/-- The timeline before call `k` of a sequence that starts with the empty timeline. -/
def before (bs : List Block) (k : Nat) : Timeline := (bs.take k).foldl call {}

/-- How many of the first `k` calls succeed. -/
def successes (bs : List Block) (k : Nat) : Nat := (succeeded {} (bs.take k)).length

/-- How many of the first `k` calls succeed and write a name. -/
def writers (bs : List Block) (k : Nat) (x : String) : Nat :=
  (succeeded {} (bs.take k)).countP fun c => x ∈ c.1.writes

/-- How many of the first `k` calls succeed and leave a symbol for a name. -/
def givers (bs : List Block) (k : Nat) (x : String) : Nat :=
  (succeeded {} (bs.take k)).countP fun c => x ∈ c.2

/-- Call `k` of a sequence succeeds and hands these symbols to its block. -/
structure Call (bs : List Block) (k : Nat) (b : Block) (ins outs : Binding) : Prop where
  block : bs[k]? = some b
  hands : (before bs k).Hands b ins outs

theorem call_of_hands {ins outs : Binding} (h : t.Hands b ins outs) :
    t.call b = t.advance (t.left b) := by
  obtain ⟨f, happly⟩ := h.exists_apply
  rw [call, happly]

/-- A call succeeds, with the symbols it hands out, or it changes nothing. -/
theorem call_cases (t : Timeline) (b : Block) : (∃ ins outs, t.Hands b ins outs) ∨
    (∃ e, t.apply b = .error e) ∧ t.call b = t := by
  cases h : t.apply b with
  | ok r => exact .inl (exists_hands_of_apply h)
  | error e => exact .inr ⟨⟨e, rfl⟩, by rw [call, h]⟩

theorem foldl_call (bs : List Block) (t : Timeline) :
    (bs.foldl call t).applied = t.applied + (succeeded t bs).length ∧
      ∀ x, (bs.foldl call t).next x = t.next x + (succeeded t bs).countP fun c => x ∈ c.2 := by
  induction bs generalizing t with
  | nil => simp [succeeded]
  | cons b rest ih =>
    rcases call_cases t b with ⟨ins, outs, h⟩ | ⟨⟨e, he⟩, hsame⟩
    · obtain ⟨f, happly⟩ := h.exists_apply
      obtain ⟨happlied, hnext⟩ := ih (t.advance (t.left b))
      rw [List.foldl_cons, call_of_hands h, succeeded, happly]
      have hadvance : (t.advance (t.left b)).applied = t.applied + 1 := rfl
      refine ⟨by rw [happlied, List.length_cons, hadvance]; omega, fun x => ?_⟩
      rw [hnext, next_advance, List.countP_cons]
      by_cases hx : x ∈ t.left b
      · simp only [hx, if_true, decide_true]
        omega
      · simp [hx]
    · rw [List.foldl_cons, hsame, succeeded, he]
      exact ih t

section Sequence

variable {bs : List Block} {c : Block} {i j k : Nat} {ins ins' outs outs' : Binding} {x y : String}

theorem before_zero (bs : List Block) : before bs 0 = {} := rfl

theorem before_succ (hb : bs[k]? = some b) : before bs (k + 1) = (before bs k).call b := by
  rw [before, List.take_add_one, hb, List.foldl_append]
  rfl

theorem before_succ_of_none (hb : bs[k]? = none) : before bs (k + 1) = before bs k := by
  rw [before, before, List.take_add_one, hb, Option.toList_none, List.append_nil]

theorem Call.before_succ (h : Call bs k b ins outs) :
    before bs (k + 1) = (before bs k).advance (b.leaves ins outs).names := by
  rw [Timeline.before_succ h.block, call_of_hands h.hands, h.hands.left_eq]

/-- The next call succeeds, or it changes nothing. -/
theorem before_cases (bs : List Block) (k : Nat) :
    (∃ b ins outs, Call bs k b ins outs) ∨
      (∀ b ins outs, ¬ Call bs k b ins outs) ∧ before bs (k + 1) = before bs k := by
  cases hb : bs[k]? with
  | none =>
    refine .inr ⟨fun b ins outs h => ?_, before_succ_of_none hb⟩
    cases hb.symm.trans h.block
  | some b =>
    rcases call_cases (before bs k) b with ⟨ins, outs, h⟩ | ⟨⟨e, he⟩, hsame⟩
    · exact .inl ⟨b, ins, outs, hb, h⟩
    · refine .inr ⟨fun b' ins outs h => ?_, (before_succ hb).trans hsame⟩
      obtain ⟨f, happly⟩ := h.hands.exists_apply
      cases hb.symm.trans h.block
      cases he.symm.trans happly

theorem next_before (bs : List Block) (k : Nat) (x : String) :
    (before bs k).next x = givers bs k x := by
  have hnext := (foldl_call (bs.take k) {}).2 x
  have hzero : next {} x = 0 := by simp [next_eq_zero]
  rw [before, hnext, hzero, Nat.zero_add, givers]

theorem succeeded_append (t : Timeline) (bs cs : List Block) :
    succeeded t (bs ++ cs) = succeeded t bs ++ succeeded (bs.foldl call t) cs := by
  induction bs generalizing t with
  | nil => rfl
  | cons b rest ih =>
    rw [List.cons_append, List.foldl_cons, succeeded, succeeded, call]
    cases t.apply b with
    | error e => exact ih t
    | ok r => exact congrArg _ (ih r.2)

theorem exists_call_of_mem_succeeded {d : Block × List String}
    (h : d ∈ succeeded {} (bs.take k)) :
    ∃ i ins outs, Call bs i d.1 ins outs ∧ d.2 = (d.1.leaves ins outs).names := by
  induction k with
  | zero => simp [succeeded] at h
  | succ k ih =>
    rw [List.take_add_one, succeeded_append, List.mem_append] at h
    refine h.elim ih fun hlast => ?_
    change d ∈ succeeded (before bs k) bs[k]?.toList at hlast
    cases hb : bs[k]? with
    | none => simp [hb, succeeded] at hlast
    | some b =>
      rw [hb, Option.toList_some, succeeded] at hlast
      cases happly : (before bs k).apply b with
      | error e => simp [happly, succeeded] at hlast
      | ok r =>
        obtain ⟨ins, outs, hands⟩ := exists_hands_of_apply happly
        obtain rfl : d = (b, (before bs k).left b) := by simpa [happly, succeeded] using hlast
        exact ⟨k, ins, outs, ⟨hb, hands⟩, hands.left_eq.symm⟩

theorem applied_before (bs : List Block) (k : Nat) :
    (before bs k).applied = successes bs k := by
  have happlied := (foldl_call (bs.take k) {}).1
  rw [before, happlied, successes]
  exact Nat.zero_add _

theorem next_before_mono (bs : List Block) (hij : i ≤ j) (x : String) :
    (before bs i).next x ≤ (before bs j).next x := by
  induction hij with
  | refl => exact Nat.le_refl _
  | @step j _ ih =>
    refine Nat.le_trans ih ?_
    rcases before_cases bs j with ⟨b, ins, outs, h⟩ | ⟨-, hsame⟩
    · rw [h.before_succ, next_advance]
      split_ifs <;> omega
    · rw [hsame]

/-- A call that leaves a symbol for a name raises its version for all later calls. -/
theorem Call.next_lt (h : Call bs i b ins outs) (hx : x ∈ (b.leaves ins outs).names) (hij : i < j) :
    (before bs i).next x < (before bs j).next x := by
  have hmono := next_before_mono bs hij x
  rw [h.before_succ, next_advance, if_pos hx] at hmono
  exact hmono

/-- The version of a name stays as it is exactly as long as no call leaves a symbol for it. -/
theorem next_before_eq_iff (hij : i ≤ j) : (before bs i).next x = (before bs j).next x ↔
    ∀ k, i ≤ k → k < j → ∀ b ins outs, Call bs k b ins outs → x ∉ (b.leaves ins outs).names := by
  constructor
  · intro heq k hik hkj b ins outs h hx
    have hlt := h.next_lt hx hkj
    have hmono := next_before_mono bs hik x
    omega
  · intro hnone
    induction hij with
    | refl => rfl
    | @step j hij ih =>
      rw [ih fun k hik hkj => hnone k hik (Nat.lt_succ_of_lt hkj)]
      rcases before_cases bs j with ⟨b, ins, outs, h⟩ | ⟨-, hsame⟩
      · rw [h.before_succ, next_advance, if_neg (hnone j hij (Nat.lt_succ_self j) b ins outs h)]
      · rw [hsame]

/-- The number of a version is the number of calls that left a symbol for the name before. -/
theorem Call.outs_symbol (h : Call bs k b ins outs) (hx : x ∈ b.writes) :
    outs.symbol x = ⟨versionedName x (givers bs k x)⟩ := by
  rw [h.hands.outs_symbol hx, fresh, next_before]

/-- Two calls are handed the same symbol exactly if it is one for the same name, for which no call
leaves a symbol from the first one on. -/
theorem Call.outs_symbol_eq_iff (h : Call bs i b ins outs) (h' : Call bs j c ins' outs')
    (hij : i ≤ j) (hx : x ∈ b.writes) (hy : y ∈ c.writes) : outs.symbol x = outs'.symbol y ↔
      x = y ∧ ∀ k, i ≤ k → k < j → ∀ d ins outs, Call bs k d ins outs →
        x ∉ (d.leaves ins outs).names := by
  rw [h.outs_symbol hx, h'.outs_symbol hy, Symbol.mk.injEq, ← next_before_eq_iff hij, next_before,
    next_before]
  constructor
  · intro heq
    obtain ⟨rfl, hgivers⟩ := versionedName_injective heq
    exact ⟨rfl, hgivers⟩
  · rintro ⟨rfl, hgivers⟩
    rw [hgivers]

/-- The latest version of a name comes from the latest call that left a symbol for it. -/
theorem exists_giver (bs : List Block) (j : Nat) (hx : 0 < (before bs j).next x) :
    ∃ i c ins outs, i < j ∧ Call bs i c ins outs ∧ x ∈ (c.leaves ins outs).names ∧
      (before bs j).latest x = ⟨versionedName x (givers bs i x)⟩ ∧
      ∀ k, i < k → k < j → ∀ b ins outs, Call bs k b ins outs →
        x ∉ (b.leaves ins outs).names := by
  induction j with
  | zero =>
    rw [next_before] at hx
    simp [givers, succeeded] at hx
  | succ j ih =>
    by_cases hlast : ∃ b ins outs, Call bs j b ins outs ∧ x ∈ (b.leaves ins outs).names
    · obtain ⟨b, ins, outs, h, hmem⟩ := hlast
      refine ⟨j, b, ins, outs, Nat.lt_succ_self j, h, hmem, ?_, fun k hjk hkj => by omega⟩
      rw [latest, h.before_succ, next_advance, if_pos hmem, Nat.add_sub_cancel, next_before]
    · have hnone : ∀ k, j ≤ k → k < j + 1 → ∀ b ins outs, Call bs k b ins outs →
          x ∉ (b.leaves ins outs).names := by
        intro k hjk hkj b ins outs h hmem
        obtain rfl : k = j := by omega
        exact hlast ⟨b, ins, outs, h, hmem⟩
      have hnext := (next_before_eq_iff (Nat.le_succ j)).2 hnone
      rw [← hnext] at hx
      obtain ⟨i, c, ins, outs, hij, hcall, hmem, hlatest, hbetween⟩ := ih hx
      refine ⟨i, c, ins, outs, Nat.lt_succ_of_lt hij, hcall, hmem, ?_, fun k hik hkj => ?_⟩
      · rw [latest, ← hnext]
        exact hlatest
      · rcases Nat.lt_succ_iff_lt_or_eq.1 hkj with hkj | rfl
        · exact hbetween k hik hkj
        · exact hnone k (Nat.le_refl k) (Nat.lt_succ_self k)

theorem Call.ins_symbol (h : Call bs j b ins outs) (hx : x ∈ b.reads) :
    ∃ i c ins' outs', i < j ∧ Call bs i c ins' outs' ∧ x ∈ (c.leaves ins' outs').names ∧
      ins.symbol x = ⟨versionedName x (givers bs i x)⟩ ∧
      ∀ k, i < k → k < j → ∀ b ins outs, Call bs k b ins outs →
        x ∉ (b.leaves ins outs).names := by
  obtain ⟨hpos, hsymbol⟩ := h.hands.ins_symbol hx
  rw [hsymbol]
  exact exists_giver bs j hpos

theorem givers_pos_iff (bs : List Block) (k : Nat) (x : String) : 0 < givers bs k x ↔
    ∃ i c ins outs, i < k ∧ Call bs i c ins outs ∧ x ∈ (c.leaves ins outs).names := by
  rw [← next_before]
  constructor
  · intro hpos
    obtain ⟨i, c, ins, outs, hik, hcall, hmem, -⟩ := exists_giver bs k hpos
    exact ⟨i, c, ins, outs, hik, hcall, hmem⟩
  · rintro ⟨i, c, ins, outs, hik, hcall, hmem⟩
    exact Nat.zero_lt_of_lt (hcall.next_lt hmem hik)

theorem exists_call_iff (hb : bs[k]? = some b) : (∃ ins outs, Call bs k b ins outs) ↔
    ∃ f t, (before bs k).apply b = .ok (f, t) := by
  constructor
  · rintro ⟨ins, outs, h⟩
    obtain ⟨f, happly⟩ := h.hands.exists_apply
    exact ⟨f, _, happly⟩
  · rintro ⟨f, t, happly⟩
    obtain ⟨ins, outs, h⟩ := exists_hands_of_apply happly
    exact ⟨ins, outs, hb, h⟩

theorem before_succ_of_error {e : TimelineError} (hb : bs[k]? = some b)
    (he : (before bs k).apply b = .error e) : before bs (k + 1) = before bs k := by
  rw [before_succ hb, call, he]

/-! ## Calls that leave what they are handed -/

/-- The calls that succeed leave symbols for the names that their blocks write, and for no
others. -/
def Kept (bs : List Block) : Prop :=
  ∀ k b ins outs, Call bs k b ins outs → ∀ x, x ∈ (b.leaves ins outs).names ↔ x ∈ b.writes

theorem kept_of_keeps (h : ∀ b ∈ bs, b.Keeps) : Kept bs := by
  intro k b ins outs hcall x
  rw [h b (List.mem_of_getElem? hcall.block), (bindWrites_eq_ok hcall.hands.writes).1,
    Binding.names_of]

section Kept

variable (kept : Kept bs)

include kept

theorem Kept.writers_eq (k : Nat) (x : String) : writers bs k x = givers bs k x := by
  refine List.countP_congr fun d hd => ?_
  obtain ⟨i, ins, outs, h, hleft⟩ := exists_call_of_mem_succeeded hd
  simp only [hleft, kept i d.1 ins outs h x]

theorem Kept.spelled (k : Nat) : (before bs k).Spelled := by
  induction k with
  | zero =>
    intro x hx
    rw [next_before] at hx
    simp [givers, succeeded] at hx
  | succ k ih =>
    rcases before_cases bs k with ⟨b, ins, outs, h⟩ | ⟨-, hsame⟩
    · rw [h.before_succ, h.hands.left_eq]
      refine h.hands.spelled_advance ih fun x hx => ?_
      rwa [← h.hands.left_eq, kept k b ins outs h] at hx
    · rwa [hsame]

theorem Kept.outs_symbol_injective (h : Call bs i b ins outs) (h' : Call bs j c ins' outs')
    (hx : x ∈ b.writes) (hy : y ∈ c.writes) (hsymbol : outs.symbol x = outs'.symbol y) :
    i = j ∧ x = y := by
  rcases Nat.lt_trichotomy i j with hij | hij | hij
  · have hnone := ((h.outs_symbol_eq_iff h' (Nat.le_of_lt hij) hx hy).1 hsymbol).2
    exact absurd ((kept i b ins outs h x).2 hx) (hnone i (Nat.le_refl i) hij b ins outs h)
  · subst hij
    exact ⟨rfl, ((h.outs_symbol_eq_iff h' (Nat.le_refl i) hx hy).1 hsymbol).1⟩
  · have hnone := ((h'.outs_symbol_eq_iff h (Nat.le_of_lt hij) hy hx).1 hsymbol.symm).2
    exact absurd ((kept j c ins' outs' h' y).2 hy) (hnone j (Nat.le_refl j) hij c ins' outs' h')

theorem Kept.ins_symbol (h : Call bs j b ins outs) (hx : x ∈ b.reads) :
    ∃ i c ins' outs', i < j ∧ Call bs i c ins' outs' ∧ x ∈ c.writes ∧
      ins.symbol x = outs'.symbol x ∧
      ∀ k b ins outs, i < k → k < j → Call bs k b ins outs → x ∉ b.writes := by
  obtain ⟨i, c, ins', outs', hij, hcall, hmem, hsymbol, hbetween⟩ := h.ins_symbol hx
  have hwrites := (kept i c ins' outs' hcall x).1 hmem
  refine ⟨i, c, ins', outs', hij, hcall, hwrites, ?_, fun k b ins outs hik hkj hk hx => ?_⟩
  · rw [hsymbol, hcall.outs_symbol hwrites]
  · exact hbetween k hik hkj b ins outs hk ((kept k b ins outs hk x).2 hx)

/-- Every version below the next one was handed out. -/
theorem Kept.exists_call_of_lt {v : Nat} (hv : v < givers bs k x) :
    ∃ i b ins outs, i < k ∧ Call bs i b ins outs ∧ x ∈ b.writes ∧
      outs.symbol x = ⟨versionedName x v⟩ := by
  induction k with
  | zero => simp [givers, succeeded] at hv
  | succ k ih =>
    have hnext := next_before bs (k + 1) x
    by_cases hold : v < givers bs k x
    · obtain ⟨i, b, ins, outs, hik, h⟩ := ih hold
      exact ⟨i, b, ins, outs, Nat.lt_succ_of_lt hik, h⟩
    · rcases before_cases bs k with ⟨b, ins, outs, h⟩ | ⟨-, hsame⟩
      · rw [h.before_succ, next_advance, next_before] at hnext
        split_ifs at hnext with hmem
        · obtain rfl : v = givers bs k x := by omega
          have hwrites := (kept k b ins outs h x).1 hmem
          exact ⟨k, b, ins, outs, Nat.lt_succ_self k, h, hwrites, h.outs_symbol hwrites⟩
        · omega
      · rw [hsame, next_before] at hnext
        omega

theorem Kept.undefined_iff :
    (∃ x, (before bs k).apply b = .error (.undefinedBeforeUse x)) ↔
      ∃ x ∈ b.reads, ¬ ∃ i c ins outs, i < k ∧ Call bs i c ins outs ∧ x ∈ c.writes := by
  have hwritten : ∀ x, (∃ i c ins outs, i < k ∧ Call bs i c ins outs ∧ x ∈ c.writes) ↔
      0 < (before bs k).next x := by
    intro x
    rw [next_before, givers_pos_iff]
    constructor
    · rintro ⟨i, c, ins, outs, hik, h, hx⟩
      exact ⟨i, c, ins, outs, hik, h, (kept i c ins outs h x).2 hx⟩
    · rintro ⟨i, c, ins, outs, hik, h, hx⟩
      exact ⟨i, c, ins, outs, hik, h, (kept i c ins outs h x).1 hx⟩
  rw [(kept.spelled k).undefined_iff]
  simp only [hwritten, Nat.pos_iff_ne_zero, not_not]

end Kept

end Sequence

/-- What a sequence of calls on a new timeline gives to its blocks, whatever they do with it. -/
structure Versioned (bs : List Block) : Prop where
  /-- Name and version can be read off a versioned name, whatever the name. -/
  names : ∀ x y v w, versionedName x v = versionedName y w → x = y ∧ v = w
  /-- The calls that return a formula are those that hand symbols to their block. -/
  succeeds : ∀ k b, bs[k]? = some b →
    ((∃ ins outs, Call bs k b ins outs) ↔ ∃ f t, (before bs k).apply b = .ok (f, t))
  /-- The version of a name that a writer gets is the number of calls that left a symbol for it. -/
  outputs : ∀ k b ins outs x, Call bs k b ins outs → x ∈ b.writes →
    outs.symbol x = ⟨versionedName x (givers bs k x)⟩
  /-- A symbol is handed out again exactly if no call has left a symbol for its name since. -/
  repeated : ∀ i j b c ins ins' outs outs' x y, Call bs i b ins outs → Call bs j c ins' outs' →
    i ≤ j → x ∈ b.writes → y ∈ c.writes → (outs.symbol x = outs'.symbol y ↔
      x = y ∧ ∀ k, i ≤ k → k < j → ∀ d ins outs, Call bs k d ins outs →
        x ∉ (d.leaves ins outs).names)
  /-- A reader gets the version that the latest call leaving a symbol for the name was to write. -/
  inputs : ∀ j b ins outs x, Call bs j b ins outs → x ∈ b.reads →
    ∃ i c ins' outs', i < j ∧ Call bs i c ins' outs' ∧ x ∈ (c.leaves ins' outs').names ∧
      ins.symbol x = ⟨versionedName x (givers bs i x)⟩ ∧
      ∀ k, i < k → k < j → ∀ b ins outs, Call bs k b ins outs → x ∉ (b.leaves ins outs).names
  /-- A name that is undefined in a call is read by its block, and no call has left a symbol for
  it. -/
  undefined : ∀ k b x, bs[k]? = some b →
    (before bs k).apply b = .error (.undefinedBeforeUse x) → x ∈ b.reads ∧ givers bs k x = 0
  /-- Such a name is never read. -/
  unread : ∀ k b x, bs[k]? = some b → x ∈ b.reads → givers bs k x = 0 →
    ∃ e, (before bs k).apply b = .error e
  /-- A call that fails changes neither the versions nor the number of blocks applied. -/
  failed : ∀ k b e, bs[k]? = some b → (before bs k).apply b = .error e →
    before bs (k + 1) = before bs k
  /-- The number of blocks applied counts the calls that succeeded. -/
  applied : ∀ k, (before bs k).applied = successes bs k

/-- Every version is written once. -/
structure SingleAssignment (bs : List Block) : Prop extends Versioned bs where
  /-- No symbol is handed out twice for writing. -/
  distinct : ∀ i j b c ins ins' outs outs' x y, Call bs i b ins outs → Call bs j c ins' outs' →
    x ∈ b.writes → y ∈ c.writes → outs.symbol x = outs'.symbol y → i = j ∧ x = y
  /-- A reader gets the symbol of the latest earlier writer, also if it writes the name itself. -/
  sources : ∀ j b ins outs x, Call bs j b ins outs → x ∈ b.reads →
    ∃ i c ins' outs', i < j ∧ Call bs i c ins' outs' ∧ x ∈ c.writes ∧
      ins.symbol x = outs'.symbol x ∧
      ∀ k b ins outs, i < k → k < j → Call bs k b ins outs → x ∉ b.writes
  /-- The version of a name that a call gets is the number of its earlier writers. -/
  versions : ∀ k b ins outs x, Call bs k b ins outs → x ∈ b.writes →
    outs.symbol x = ⟨versionedName x (writers bs k x)⟩
  /-- The versions of a name have no gaps. -/
  gapless : ∀ k x v, v < writers bs k x → ∃ i b ins outs, i < k ∧ Call bs i b ins outs ∧
    x ∈ b.writes ∧ outs.symbol x = ⟨versionedName x v⟩
  /-- A name is undefined in a call if and only if no earlier call wrote it. -/
  unwritten : ∀ k b, bs[k]? = some b →
    ((∃ x, (before bs k).apply b = .error (.undefinedBeforeUse x)) ↔
      ∃ x ∈ b.reads, ¬ ∃ i c ins outs, i < k ∧ Call bs i c ins outs ∧ x ∈ c.writes)

theorem versioned_calls (bs : List Block) : Versioned bs where
  names _ _ _ _ := versionedName_injective
  succeeds _ _ := exists_call_iff
  outputs _ _ _ _ _ h := h.outs_symbol
  repeated _ _ _ _ _ _ _ _ _ _ h h' := h.outs_symbol_eq_iff h'
  inputs _ _ _ _ _ h := h.ins_symbol
  undefined k _ x _ h := next_before bs k x ▸ next_eq_zero_of_undefined h
  unread k _ x _ hx h := exists_error_of_next_eq_zero hx ((next_before bs k x).trans h)
  failed _ _ _ := before_succ_of_error
  applied := applied_before bs

theorem Kept.singleAssignment {bs : List Block} (kept : Kept bs) : SingleAssignment bs where
  toVersioned := versioned_calls bs
  distinct _ _ _ _ _ _ _ _ _ _ h h' := kept.outs_symbol_injective h h'
  sources _ _ _ _ _ h := kept.ins_symbol h
  versions k _ _ _ x h hx := kept.writers_eq k x ▸ h.outs_symbol hx
  gapless k x _ hv := kept.exists_call_of_lt (kept.writers_eq k x ▸ hv)
  unwritten _ _ _ := kept.undefined_iff

/-- Whatever the blocks do with the symbols that they are handed, a call gets the version that the
calls so far have left, so that a symbol is handed out again exactly if none was left for its name.
If the calls leave what they are handed, every version is written once. -/
theorem singleAssignment_calls (bs : List Block) :
    Versioned bs ∧ (Kept bs → SingleAssignment bs) :=
  ⟨versioned_calls bs, Kept.singleAssignment⟩

/-- A block that writes one name and reads none is handed the next version of the name. -/
theorem call_of_writer (bs : List Block) (k : Nat) {x : String} {f : Formula} {t' : Timeline}
    (hb : bs[k]? = some b) (ht : before bs k = t) (h : t.apply b = .ok (f, t'))
    (hreads : b.reads = []) (hwrites : b.writes = [x]) :
    Call bs k b [] [(x, ⟨versionedName x (t.next x)⟩)] := by
  have hands := hands_of_apply h
  rw [hreads, hwrites] at hands
  subst ht
  exact ⟨hb, hands⟩

/-- A pin, a reader of another name and a second pin: the reader fails, and the pins are handed the
first two versions of their name. -/
theorem singleAssignment_calls_pins :
    SingleAssignment [.pin "X" 8 1, reader "Y", .pin "X" 8 2] ∧
      Call [.pin "X" 8 1, reader "Y", .pin "X" 8 2] 0 (.pin "X" 8 1) [] [("X", ⟨"X_0"⟩)] ∧
      (before [.pin "X" 8 1, reader "Y", .pin "X" 8 2] 1).apply (reader "Y") =
        .error (.undefinedBeforeUse "Y") ∧
      Call [.pin "X" 8 1, reader "Y", .pin "X" 8 2] 2 (.pin "X" 8 2) [] [("X", ⟨"X_1"⟩)] := by
  have hnone : ∀ x, next {} x = 0 := fun x => by simp [next]
  have hkeeps : ∀ b ∈ [Block.pin "X" 8 1, reader "Y", .pin "X" 8 2], b.Keeps := by
    simp only [List.forall_mem_cons]
    exact ⟨fun _ _ => rfl, fun _ _ => rfl, fun _ _ => rfl, by simp⟩
  obtain ⟨f, hfirst, -⟩ := exists_apply_pin (t := {}) (x := "X") (by decide) (w := 8) (by decide)
    (by decide) 1#8
  have hreader : (advance {} ["X"]).apply (reader "Y") = .error (.undefinedBeforeUse "Y") :=
    reader_fails (by simp [next_advance, hnone])
  obtain ⟨g, hlast, -⟩ := exists_apply_pin (t := advance {} ["X"]) (x := "X") (by decide) (w := 8)
    (by decide) (by decide) 2#8
  have hone : before [.pin "X" 8 1, reader "Y", .pin "X" 8 2] 1 = advance {} ["X"] := by
    rw [before_succ (b := .pin "X" 8 1) rfl]
    exact (call_of_hands (hands_of_apply hfirst))
  have htwo : before [.pin "X" 8 1, reader "Y", .pin "X" 8 2] 2 = advance {} ["X"] := by
    rw [before_succ_of_error (b := reader "Y") rfl (hone ▸ hreader), hone]
  refine ⟨(singleAssignment_calls _).2 (kept_of_keeps hkeeps), ?_, hone ▸ hreader, ?_⟩
  · have hcall := call_of_writer [.pin "X" 8 1, reader "Y", .pin "X" 8 2] 0 rfl (before_zero _)
      hfirst rfl rfl
    rwa [hnone] at hcall
  · have hcall := call_of_writer [.pin "X" 8 1, reader "Y", .pin "X" 8 2] 2 rfl htwo hlast rfl rfl
    rwa [next_advance, if_pos (List.mem_singleton_self "X"), hnone] at hcall

/-- A block that takes back the symbol that it is handed. -/
def forgetful (x : String) : Block where
  reads := []
  writes := [x]
  generate := fun _ _ => .ok []
  leaves := fun _ _ => []

theorem apply_forgetful {x : String} (hx : IsName x) :
    t.apply (forgetful x) = .ok ([], t.advance []) := by
  have hwrites : t.bindWrites [x] = .ok (.of [x] t.fresh) := bindWrites_eq (by simpa using hx)
  change (t.bindWrites [x] >>= _) = _
  rw [hwrites]
  rfl

/-- The symbol that a block takes back is handed to the next writer of the name again. -/
theorem forgetful_hands_again :
    Call [forgetful "X", .pin "X" 8 1] 0 (forgetful "X") [] [("X", ⟨"X_0"⟩)] ∧
      Call [forgetful "X", .pin "X" 8 1] 1 (.pin "X" 8 1) [] [("X", ⟨"X_0"⟩)] ∧
      ¬ SingleAssignment [forgetful "X", .pin "X" 8 1] := by
  have hnone : next {} "X" = 0 := by simp [next]
  have hfirst : apply {} (forgetful "X") = .ok ([], advance {} []) := apply_forgetful (by decide)
  obtain ⟨f, hpin, -⟩ := exists_apply_pin (t := advance {} []) (x := "X") (by decide) (w := 8)
    (by decide) (by decide) 1#8
  have hone : before [forgetful "X", .pin "X" 8 1] 1 = advance {} [] := by
    rw [before_succ (b := forgetful "X") rfl]
    exact call_of_hands (hands_of_apply hfirst)
  have hcall := call_of_writer [forgetful "X", .pin "X" 8 1] 0 rfl (before_zero _) hfirst rfl rfl
  have hcall' := call_of_writer [forgetful "X", .pin "X" 8 1] 1 rfl hone hpin rfl rfl
  rw [hnone] at hcall
  rw [next_advance, if_neg (List.not_mem_nil), hnone] at hcall'
  refine ⟨hcall, hcall', fun h => ?_⟩
  have hsame := h.distinct 0 1 _ _ _ _ _ _ "X" "X" hcall hcall' List.mem_cons_self
    List.mem_cons_self rfl
  exact absurd hsame.1 (by decide)

end CycleCheck.Timeline
