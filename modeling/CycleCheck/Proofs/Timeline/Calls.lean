import CycleCheck.Proofs.Term.Clause
import CycleCheck.Proofs.Timeline.Compilation
import CycleCheck.Propagation.Pass

/-!
Calls of blocks. Name and version can be read off a symbol, because no decimal digit is an
underscore. A call that succeeds hands its block the latest symbols of the names it reads and the
next ones of the names it writes, and moves the names for which the block leaves a symbol to their
next versions.
-/

namespace CycleCheck.Timeline

/-! ## Names of versions -/

theorem toList_versionedName (x : String) (v : Nat) :
    (versionedName x v).toList = x.toList ++ '_' :: Nat.toDigits 10 v := by
  simp [versionedName, Text.decimal, Text.digits]

theorem isDigit_of_mem_toDigits {c : Char} {v : Nat} (h : c ∈ Nat.toDigits 10 v) :
    c.isDigit = true := Nat.isDigit_of_mem_toDigits (by decide) (by decide) h

theorem underscore_notMem_toDigits (v : Nat) : '_' ∉ Nat.toDigits 10 v :=
  fun h => absurd (isDigit_of_mem_toDigits h) (by decide)

theorem toDigits_injective : Function.Injective (Nat.toDigits 10) := by
  intro v w h
  rw [← Nat.ofDigitChars_toDigits (b := 10) (n := v) (by decide) (by decide), h,
    Nat.ofDigitChars_toDigits (by decide) (by decide)]

/-- The last underscore of a versioned name stands between the name and the version. -/
theorem versionedName_injective {x y : String} {v w : Nat}
    (h : versionedName x v = versionedName y w) : x = y ∧ v = w := by
  have hlists : x.toList ++ '_' :: Nat.toDigits 10 v = y.toList ++ '_' :: Nat.toDigits 10 w := by
    rw [← toList_versionedName, ← toList_versionedName, h]
  have hv := underscore_notMem_toDigits v
  have hw := underscore_notMem_toDigits w
  have hparts : x.toList = y.toList ∧ Nat.toDigits 10 v = Nat.toDigits 10 w := by
    rcases List.append_eq_append_iff.1 hlists with ⟨between, hy, hrest⟩ | ⟨between, hx, hrest⟩
    · cases between with
      | nil => simp_all
      | cons c cs =>
        -- the second underscore would be one of the digits of the first version
        rw [List.cons_append, List.cons.injEq] at hrest
        exact absurd (hrest.2 ▸ by simp) hv
    · cases between with
      | nil => simp_all
      | cons c cs =>
        rw [List.cons_append, List.cons.injEq] at hrest
        exact absurd (hrest.2 ▸ by simp) hw
  exact ⟨String.toList_inj.1 hparts.1, toDigits_injective hparts.2⟩

/-! ## Symbols of versions -/

theorem parse_eq_ok_iff {name : String} {s : Symbol} : Symbol.parse name = .ok s ↔
    s = ⟨name⟩ ∧ (∃ c, name.toList.head? = some c ∧ c.isDigit = false) ∧
      ∀ c ∈ name.toList, Symbol.isSymbolChar c = true := by
  unfold Symbol.parse
  cases name.toList with
  | nil => simp
  | cons c rest =>
    simp only [List.head?_cons, Option.some.injEq, exists_eq_left']
    split_ifs with hbad
    · refine iff_of_false (by simp) ?_
      rintro ⟨-, hdigit, hall⟩
      rw [hdigit, List.all_eq_true.2 hall] at hbad
      exact absurd hbad (by decide)
    · simp only [Bool.or_eq_true, Bool.not_eq_true', not_or, Bool.not_eq_false,
        Bool.not_eq_true] at hbad
      rw [and_iff_left ⟨hbad.1, List.all_eq_true.1 hbad.2⟩, Except.ok.injEq]
      exact eq_comm

/-- Whether a versioned name is a symbol does not depend on the version. -/
theorem parse_versionedName_of_ok {x : String} {v : Nat} {s : Symbol}
    (h : Symbol.parse (versionedName x v) = .ok s) (w : Nat) :
    Symbol.parse (versionedName x w) = .ok ⟨versionedName x w⟩ := by
  obtain ⟨-, ⟨c, hhead, hc⟩, hall⟩ := parse_eq_ok_iff.1 h
  rw [toList_versionedName] at hhead hall
  refine parse_eq_ok_iff.2 ⟨rfl, ⟨c, ?_, hc⟩, fun d hd => ?_⟩
  · rw [toList_versionedName, ← hhead]
    cases x.toList <;> rfl
  · rw [toList_versionedName] at hd
    rcases List.mem_append.1 hd with hd | hd
    · exact hall d (List.mem_append_left _ hd)
    · rcases List.mem_cons.1 hd with rfl | hd
      · exact hall '_' (by simp)
      · exact isSymbolChar_of_isDigit (isDigit_of_mem_toDigits hd)

/-! ## One call -/

variable {t : Timeline} {b : Block}

theorem bindWrites_cons (x : String) (rest : List String) : t.bindWrites (x :: rest) =
    match Symbol.parse (t.fresh x).name with
    | .error e => .error (.refused e)
    | .ok s => (t.bindWrites rest).map ((x, s) :: ·) := by
  rw [bindWrites, List.mapM_cons, fresh]
  cases Symbol.parse (versionedName x (t.next x)) <;> rfl

theorem bindWrites_eq_ok {names : List String} {outs : Binding} (h : t.bindWrites names = .ok outs) :
    outs = .of names t.fresh ∧ ∀ x ∈ names, Symbol.parse (t.fresh x).name = .ok (t.fresh x) := by
  induction names generalizing outs with
  | nil =>
    cases h
    exact ⟨rfl, by simp⟩
  | cons x rest ih =>
    rw [bindWrites_cons] at h
    cases hx : Symbol.parse (t.fresh x).name with
    | error e => simp [hx] at h
    | ok s =>
      obtain rfl : s = t.fresh x := (parse_eq_ok_iff.1 hx).1
      cases hrest : t.bindWrites rest with
      | error e => simp [hx, hrest, Except.map] at h
      | ok pairs =>
        obtain ⟨rfl, hall⟩ := ih hrest
        simp only [hx, hrest, Except.map, Except.ok.injEq] at h
        exact ⟨h.symm, List.forall_mem_cons.2 ⟨hx, hall⟩⟩

theorem bindWrites_ne_undefined (names : List String) (x : String) :
    t.bindWrites names ≠ .error (.undefinedBeforeUse x) := by
  induction names with
  | nil => exact fun h => by cases h
  | cons y rest ih =>
    rw [bindWrites_cons]
    cases Symbol.parse (t.fresh y).name with
    | error e => simp
    | ok s => cases hrest : t.bindWrites rest <;> simp_all [Except.map]

theorem next_eq_zero {x : String} : t.next x = 0 ↔ t.versions[x]? = none := by
  unfold next
  cases t.versions[x]? <;> simp

theorem versions_eq_some {x : String} {v : Nat} (h : t.versions[x]? = some v) :
    t.next x = v + 1 := by
  rw [next, h]

/-- The current version of a variable is the latest one that was given out, unless there is none or
its name is not one of a symbol. -/
theorem current_cases (t : Timeline) (x : String) :
    t.current x = .ok (t.latest x) ∧ 0 < t.next x ∨
      t.current x = .error (.undefinedBeforeUse x) ∧ t.next x = 0 ∨
        0 < t.next x ∧ ∃ e, t.current x = .error (.refused e) ∧
          Symbol.parse (t.latest x).name = .error e := by
  unfold current latest
  cases hv : t.versions[x]? with
  | none => exact .inr (.inl ⟨rfl, next_eq_zero.2 hv⟩)
  | some v =>
    rw [versions_eq_some hv, Nat.add_sub_cancel]
    cases hparse : Symbol.parse (versionedName x v) with
    | error e => exact .inr (.inr ⟨Nat.succ_pos v, e, by simp [hparse, Except.mapError], rfl⟩)
    | ok s =>
      obtain rfl := (parse_eq_ok_iff.1 hparse).1
      exact .inl ⟨by simp [hparse, Except.mapError], Nat.succ_pos v⟩

theorem bindReads_cons (x : String) (rest : List String) : t.bindReads (x :: rest) =
    match t.current x with
    | .error e => .error e
    | .ok s => (t.bindReads rest).map ((x, s) :: ·) := by
  rw [bindReads, List.mapM_cons]
  cases t.current x <;> rfl

/-- Names are read at their latest versions, up to the first one that cannot be read. -/
theorem bindReads_cases (t : Timeline) (names : List String) :
    t.bindReads names = .ok (.of names t.latest) ∧ (∀ x ∈ names, 0 < t.next x) ∨
      (∃ x ∈ names, t.bindReads names = .error (.undefinedBeforeUse x) ∧ t.next x = 0) ∨
        ∃ x ∈ names, 0 < t.next x ∧ ∃ e, t.bindReads names = .error (.refused e) ∧
          Symbol.parse (t.latest x).name = .error e := by
  induction names with
  | nil => exact .inl ⟨rfl, by simp⟩
  | cons x rest ih =>
    rw [bindReads_cons]
    rcases t.current_cases x with ⟨hx, hpos⟩ | ⟨hx, hzero⟩ | ⟨hpos, e, hx, hparse⟩
    · rw [hx]
      rcases ih with ⟨hrest, hall⟩ | ⟨y, hy, hrest, hzero⟩ | ⟨y, hy, hypos, e, hrest, hparse⟩
      · exact .inl ⟨by simp only [hrest]; rfl, List.forall_mem_cons.2 ⟨hpos, hall⟩⟩
      · exact .inr (.inl ⟨y, List.mem_cons_of_mem x hy, by simp only [hrest]; rfl, hzero⟩)
      · exact .inr (.inr
          ⟨y, List.mem_cons_of_mem x hy, hypos, e, by simp only [hrest]; rfl, hparse⟩)
    · exact .inr (.inl ⟨x, List.mem_cons_self, by rw [hx], hzero⟩)
    · exact .inr (.inr ⟨x, List.mem_cons_self, hpos, e, by rw [hx], hparse⟩)

/-- A call succeeds with the symbols it hands to its block. -/
structure Hands (t : Timeline) (b : Block) (ins outs : Binding) : Prop where
  reads : t.bindReads b.reads = .ok ins
  writes : t.bindWrites b.writes = .ok outs
  generates : ∃ f, b.generate ins outs = .ok f ∧
    t.apply b = .ok (f, t.advance (b.leaves ins outs).names)

theorem Hands.ins_eq {ins outs : Binding} (h : t.Hands b ins outs) :
    ins = .of b.reads t.latest ∧ ∀ x ∈ b.reads, 0 < t.next x := by
  have hins := h.reads
  rcases t.bindReads_cases b.reads with ⟨heq, hpos⟩ | ⟨x, -, heq, -⟩ | ⟨x, -, -, e, heq, -⟩
  all_goals
    rw [heq] at hins
    cases hins
  exact ⟨rfl, hpos⟩

theorem Hands.left_eq {ins outs : Binding} (h : t.Hands b ins outs) :
    (b.leaves ins outs).names = t.left b := by
  rw [h.ins_eq.1, (bindWrites_eq_ok h.writes).1, left]

theorem Hands.exists_apply {ins outs : Binding} (h : t.Hands b ins outs) :
    ∃ f, t.apply b = .ok (f, t.advance (t.left b)) := by
  obtain ⟨f, -, happly⟩ := h.generates
  exact ⟨f, h.left_eq ▸ happly⟩

theorem exists_hands_of_apply {f : Formula} {t' : Timeline} (h : t.apply b = .ok (f, t')) :
    ∃ ins outs, t.Hands b ins outs := by
  have happly := h
  unfold apply at h
  obtain ⟨ins, hins, h⟩ := Propagation.exists_ok_of_bind h
  obtain ⟨outs, houts, h⟩ := Propagation.exists_ok_of_bind h
  split at h
  · cases h
  · cases h
  · next g hg =>
    cases h
    exact ⟨ins, outs, hins, houts, f, hg, happly⟩

theorem hands_of_apply {f : Formula} {t' : Timeline} (h : t.apply b = .ok (f, t')) :
    t.Hands b (.of b.reads t.latest) (.of b.writes t.fresh) := by
  obtain ⟨ins, outs, hands⟩ := exists_hands_of_apply h
  obtain ⟨rfl, -⟩ := hands.ins_eq
  obtain ⟨rfl, -⟩ := bindWrites_eq_ok hands.writes
  exact hands

/-- What a call that succeeds generates, and what it does to the timeline. -/
theorem generate_of_apply {f : Formula} {t' : Timeline} (h : t.apply b = .ok (f, t')) :
    b.generate (.of b.reads t.latest) (.of b.writes t.fresh) = .ok f ∧
      t' = t.advance (t.left b) ∧ ∀ x ∈ b.reads, 0 < t.next x := by
  have hands := hands_of_apply h
  obtain ⟨g, hgen, happly⟩ := hands.generates
  cases h.symm.trans happly
  exact ⟨hgen, rfl, hands.ins_eq.2⟩

theorem advance_of_apply {f : Formula} {t' : Timeline} (keeps : b.Keeps)
    (h : t.apply b = .ok (f, t')) : t' = t.advance b.writes := by
  rw [(generate_of_apply h).2.1, left_of_keeps keeps]

theorem Hands.outs_symbol {ins outs : Binding} (h : t.Hands b ins outs) {x : String}
    (hx : x ∈ b.writes) : outs.symbol x = t.fresh x := by
  rw [(bindWrites_eq_ok h.writes).1, Binding.symbol_of hx]

theorem Hands.ins_symbol {ins outs : Binding} (h : t.Hands b ins outs) {x : String}
    (hx : x ∈ b.reads) : 0 < t.next x ∧ ins.symbol x = t.latest x := by
  obtain ⟨rfl, hpos⟩ := h.ins_eq
  exact ⟨hpos x hx, Binding.symbol_of hx⟩

/-! ## Names that cannot be read -/

/-- A call stops at a name that is undefined while it binds what its block reads. -/
theorem apply_eq_undefined_iff {x : String} : t.apply b = .error (.undefinedBeforeUse x) ↔
    t.bindReads b.reads = .error (.undefinedBeforeUse x) := by
  unfold apply
  cases hreads : t.bindReads b.reads with
  | error e =>
    constructor
    all_goals
      intro h
      cases h
      rfl
  | ok ins =>
    refine iff_of_false (fun h => ?_) nofun
    change t.bindWrites b.writes >>= _ = _ at h
    cases hwrites : t.bindWrites b.writes with
    | error e =>
      rw [hwrites] at h
      cases h
      exact bindWrites_ne_undefined _ x hwrites
    | ok outs =>
      rw [hwrites] at h
      dsimp only [bind, Except.bind] at h
      split at h <;> cases h

/-- The name that a call finds undefined has no version. -/
theorem next_eq_zero_of_undefined {x : String}
    (h : t.apply b = .error (.undefinedBeforeUse x)) : x ∈ b.reads ∧ t.next x = 0 := by
  rw [apply_eq_undefined_iff] at h
  rcases t.bindReads_cases b.reads with ⟨heq, -⟩ | ⟨y, hy, heq, hzero⟩ | ⟨y, -, -, e, heq, -⟩
  all_goals
    rw [heq] at h
    cases h
  exact ⟨hy, hzero⟩

/-- A call whose block reads a name that has no version fails. -/
theorem exists_error_of_next_eq_zero {x : String} (hx : x ∈ b.reads) (hzero : t.next x = 0) :
    ∃ e, t.apply b = .error e := by
  cases h : t.apply b with
  | error e => exact ⟨e, rfl⟩
  | ok r => exact absurd hzero (Nat.pos_iff_ne_zero.1 ((generate_of_apply h).2.2 x hx))

/-- The versions given out so far are symbols. -/
def Spelled (t : Timeline) : Prop :=
  ∀ x, 0 < t.next x → ∀ v, Symbol.parse (versionedName x v) = .ok ⟨versionedName x v⟩

theorem Hands.spelled_advance {ins outs : Binding} (h : t.Hands b ins outs) (ht : t.Spelled)
    (kept : ∀ x ∈ t.left b, x ∈ b.writes) : (t.advance (t.left b)).Spelled := by
  intro x hx v
  rw [next_advance] at hx
  by_cases hmem : x ∈ t.left b
  · exact parse_versionedName_of_ok ((bindWrites_eq_ok h.writes).2 x (kept x hmem)) v
  · rw [if_neg hmem] at hx
    exact ht x hx v

/-- If the versions are symbols, nothing but a name without a version stops the reads of a block. -/
theorem Spelled.undefined_iff (ht : t.Spelled) :
    (∃ x, t.apply b = .error (.undefinedBeforeUse x)) ↔ ∃ x ∈ b.reads, t.next x = 0 := by
  constructor
  · rintro ⟨x, h⟩
    exact ⟨x, next_eq_zero_of_undefined h⟩
  · rintro ⟨x, hx, hzero⟩
    simp only [apply_eq_undefined_iff]
    rcases t.bindReads_cases b.reads with ⟨-, hpos⟩ | ⟨y, -, heq, -⟩ | ⟨y, -, hpos, e, -, hparse⟩
    · exact absurd hzero (Nat.pos_iff_ne_zero.1 (hpos x hx))
    · exact ⟨y, heq⟩
    · cases hparse.symm.trans (ht y hpos _)

/-! ## Pins and readers -/

/-- A pin gives the next version of a name its value. -/
theorem exists_apply_pin {x : String} (hx : IsName x) {w : Nat} (pos : 0 < w) (narrow : w ≤ 64)
    (v : BitVec w) : ∃ f, t.apply (.pin x w v.toNat.toUInt64) = .ok (f, t.advance [x]) ∧
      f.signature = [((t.fresh x).name, .bits w)] ∧
      ∀ I : Interpretation, I.Satisfies f ↔ I (t.fresh x).name = .bits w v := by
  have hfresh : Binding.symbol (.of [x] t.fresh) x = t.fresh x :=
    Binding.symbol_of (List.mem_singleton_self _)
  have hname : (t.fresh x).name.isEmpty = false := by
    simp [Timeline.fresh, Timeline.versionedName]
  have hwidth : w.toUInt64.toNat = w := by simpa using by omega
  have hgen : (Block.pin x w v.toNat.toUInt64).generate (.of [] t.latest) (.of [x] t.fresh) =
      .ok [.declareBits (t.fresh x) ⟨w.toUInt64⟩,
        .assert (.eq (.symbol (t.fresh x)) (.word w v.toNat))] := by
    simp only [Block.pin, Term.bits_eq_word pos narrow v.isLt, hfresh, Binding.term, Command.bits?,
      hname]
    rw [if_neg (by omega)]
    rfl
  refine ⟨_, apply_eq (fun _ _ => rfl) (by simp [Block.pin]) (by simpa [Block.pin] using hx) hgen,
    ?_, fun I => ?_⟩
  · simp [Formula.signature, Command.declared?, hwidth]
  · rw [Interpretation.satisfies_declareBits, Interpretation.satisfies_assert, Term.eq, I.holds_eq,
      I.denote_word, BitVec.ofNat_toNat, BitVec.setWidth_eq]
    simp [Interpretation.denote]

/-- A block that asserts nothing but needs a variable. -/
def reader (x : String) : Block where
  reads := [x]
  writes := []
  generate := fun _ _ => .ok []

theorem reader_fails {x : String} (h : t.next x = 0) :
    t.apply (reader x) = .error (.undefinedBeforeUse x) := by
  have hcurrent : t.current x = .error (.undefinedBeforeUse x) := by
    rw [current, next_eq_zero.1 h]
  simp [apply, bindReads, reader, hcurrent, bind, Except.bind]

end CycleCheck.Timeline
