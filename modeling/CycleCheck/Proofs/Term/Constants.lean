import CycleCheck.Proofs.Propagation.Word
import CycleCheck.Proofs.Term.Build
import Mathlib.Data.Nat.Digits.Lemmas

/-!
Constants and numerals are read as they were written. A numeral is the decimal form of its value, a
constant built from a value and a width is accepted by the reader of its base, and evaluation gives
every accepted constant of at most 64 bits the number that its digits stand for.
-/

namespace CycleCheck

namespace Text

variable {base n : Nat} {c : Char} {cs : List Char}

/-! ## Decimal digits -/

theorem digitValue?_of_isDigit (h : c.isDigit = true) :
    digitValue? c = some (c.toNat - '0'.toNat) := by
  rw [Char.isDigit, Bool.and_eq_true, decide_eq_true_eq, decide_eq_true_eq] at h
  exact if_pos h

theorem lt_ten_of_isDigit (h : c.isDigit = true) : c.toNat - '0'.toNat < 10 := by
  have hbounds := Char.isDigit_iff_toNat.1 h
  have hnine : '9'.toNat = '0'.toNat + 9 := rfl
  omega

theorem digitChar_of_isDigit (h : c.isDigit = true) :
    Nat.digitChar (c.toNat - '0'.toNat) = c := by
  have hbounds := Char.isDigit_iff_toNat.1 h
  have hzero : '0'.toNat = 48 := rfl
  refine Char.toNat_inj.1 ?_
  rw [Nat.toNat_digitChar_of_lt_ten (lt_ten_of_isDigit h)]
  omega

theorem positional_ten (h : ∀ c ∈ cs, c.isDigit = true) :
    positional 10 cs = Nat.ofDigitChars 10 cs 0 := by
  refine List.foldl_ext _ _ 0 fun m c hc => ?_
  rw [digitValue?_of_isDigit (h c hc), Option.getD_some, Nat.mul_comm]

/-- Digits behind a number that is not zero continue its decimal form. -/
theorem toDigits_append (pos : 0 < n) (h : ∀ c ∈ cs, c.isDigit = true) :
    Nat.toDigits 10 n ++ cs = Nat.toDigits 10 (Nat.ofDigitChars 10 cs n) := by
  induction cs generalizing n with
  | nil => exact List.append_nil _
  | cons c rest ih =>
    obtain ⟨hc, hrest⟩ := List.forall_mem_cons.1 h
    have hlt := lt_ten_of_isDigit hc
    calc Nat.toDigits 10 n ++ c :: rest
        = (Nat.toDigits 10 n ++ Nat.toDigits 10 (c.toNat - '0'.toNat)) ++ rest := by
          rw [Nat.toDigits_of_lt_base hlt, digitChar_of_isDigit hc, List.append_assoc]
          rfl
      _ = Nat.toDigits 10 (10 * n + (c.toNat - '0'.toNat)) ++ rest := by
          rw [Nat.toDigits_append_toDigits (by decide) pos hlt]
      _ = Nat.toDigits 10 (Nat.ofDigitChars 10 (c :: rest) n) := by
          rw [ih (by omega) hrest, Nat.ofDigitChars_cons]

/-- Digits are the decimal form of their number unless a zero leads them. -/
theorem toDigits_ofDigitChars (h : ∀ d ∈ c :: cs, d.isDigit = true) (lead : c = '0' → cs = []) :
    Nat.toDigits 10 (Nat.ofDigitChars 10 (c :: cs) 0) = c :: cs := by
  obtain ⟨hc, hcs⟩ := List.forall_mem_cons.1 h
  have hfirst : Nat.toDigits 10 (c.toNat - '0'.toNat) = [c] := by
    rw [Nat.toDigits_of_lt_base (lt_ten_of_isDigit hc), digitChar_of_isDigit hc]
  rw [Nat.ofDigitChars_cons, Nat.mul_zero, Nat.zero_add]
  by_cases hzero : c = '0'
  · rw [lead hzero]
    exact hfirst
  · have hbounds := Char.isDigit_iff_toNat.1 hc
    have hne : c.toNat ≠ '0'.toNat := fun heq => hzero (Char.toNat_inj.1 heq)
    rw [← toDigits_append (by omega) hcs, hfirst]
    rfl

/-- No zero leads the decimal form of a number of more than one digit. -/
theorem eq_nil_of_toDigits_eq_zero_cons (h : Nat.toDigits 10 n = '0' :: cs) : cs = [] := by
  induction n using Nat.strong_induction_on generalizing cs with
  | _ n ih =>
    by_cases hlt : n < 10
    · rw [Nat.toDigits_of_lt_base hlt] at h
      exact (List.cons.inj h).2.symm
    · have hsplit := Nat.toDigits_append_toDigits (b := 10) (n := n / 10) (d := n % 10)
        (by decide) (by omega) (Nat.mod_lt n (by decide))
      rw [Nat.div_add_mod, h] at hsplit
      obtain ⟨d, rest, hhead⟩ := List.exists_cons_of_ne_nil
        (Nat.toDigits_ne_nil (b := 10) (n := n / 10))
      rw [hhead, List.cons_append, List.cons.injEq] at hsplit
      rw [hsplit.1] at hhead
      -- the number without its last digit would be zero
      have hrest := ih (n / 10) (by omega) hhead
      have hvalue := Nat.ofDigitChars_ten_toDigits (n := n / 10)
      rw [hhead, hrest] at hvalue
      have : n / 10 = 0 := hvalue.symm
      omega

theorem toDigits_of_natural? (h : natural? (c :: cs) = some n) (lead : c = '0' → cs = []) :
    Nat.toDigits 10 n = c :: cs := by
  unfold natural? at h
  split_ifs at h with hdigits
  cases h
  have hall : ∀ d ∈ c :: cs, d.isDigit = true := by simpa using hdigits
  rw [positional_ten hall, toDigits_ofDigitChars hall lead]

theorem natural?_toDigits (n : Nat) : natural? (Nat.toDigits 10 n) = some n := by
  have hall : ∀ d ∈ Nat.toDigits 10 n, d.isDigit = true :=
    fun _ => Nat.isDigit_of_mem_toDigits (by decide) (by decide)
  have hne := Nat.toDigits_ne_nil (b := 10) (n := n)
  unfold natural?
  rw [if_neg (by simpa [hne] using hall), positional_ten hall, Nat.ofDigitChars_ten_toDigits]

end Text

/-! ## Numerals -/

namespace Numeral

variable {digits : String} {m : Numeral}

theorem eq_text_of_parse (h : Numeral.parse digits = .ok m) : digits = m.text := by
  unfold Numeral.parse at h
  split at h
  · cases h
  · next c rest hlist =>
    split_ifs at h with hlead
    split at h
    · next n hn =>
      split_ifs at h with hlt
      cases h
      have hnat : n.toUInt64.toNat = n := by simpa using hlt
      have hdigits := Text.toDigits_of_natural? hn fun hzero => by simpa [hzero] using hlead
      rw [Numeral.text, Text.decimal, Text.digits, hnat, hdigits, ← hlist, String.ofList_toList]
    · cases h

theorem parse_text (m : Numeral) : Numeral.parse m.text = .ok m := by
  obtain ⟨c, rest, hcons⟩ := List.exists_cons_of_ne_nil
    (Nat.toDigits_ne_nil (b := 10) (n := m.value.toNat))
  have hlist : m.text.toList = c :: rest := String.toList_ofList.trans hcons
  have hnatural : Text.natural? (c :: rest) = some m.value.toNat :=
    hcons ▸ Text.natural?_toDigits m.value.toNat
  have hlead : ¬(!rest.isEmpty && c = '0') = true := by
    rw [Bool.and_eq_true, decide_eq_true_eq]
    rintro ⟨hrest, rfl⟩
    rw [Text.eq_nil_of_toDigits_eq_zero_cons hcons] at hrest
    cases hrest
  have hvalue : m.value.toNat.toUInt64 = m.value := UInt64.ofNat_toNat
  unfold Numeral.parse
  rw [hlist]
  dsimp only
  rw [if_neg hlead, hnatural]
  dsimp only
  rw [if_pos m.value.toNat_lt, hvalue]

/-- The accepted numerals are the decimal forms of the numbers below 2^64. -/
theorem parse_eq_ok : Numeral.parse digits = .ok m ↔ digits = m.text :=
  ⟨eq_text_of_parse, fun h => h ▸ parse_text m⟩

end Numeral

/-! ## Digits of a base -/

namespace Text

/-- A text and the values of its digits in a base, the most significant first and letters in either
case. -/
structure Spells (base : Nat) (text : String) (ds : List Nat) : Prop where
  values : text.toList.map digitValue? = ds.map some
  below : ∀ d ∈ ds, d < base

variable {base width : Nat} {text : String} {ds : List Nat}

theorem Spells.length_eq (h : Spells base text ds) : text.length = ds.length := by
  have hlengths := congrArg List.length h.values
  rwa [List.length_map, List.length_map, String.length_toList] at hlengths

theorem positional_of_values {cs : List Char} (h : cs.map digitValue? = ds.map some) :
    positional base cs = Nat.ofDigits base ds.reverse := by
  induction ds generalizing cs with
  | nil =>
    rw [List.map_eq_nil_iff.1 h]
    rfl
  | cons d rest ih =>
    obtain ⟨c, cs', rfl, hc, hrest⟩ := List.map_eq_cons_iff.1 h
    have hlength : cs'.length = rest.length := by simpa using congrArg List.length hrest
    rw [positional, List.foldl_cons, foldl_positional, ih hrest, hc, List.reverse_cons,
      Nat.ofDigits_append, List.length_reverse, Nat.ofDigits_singleton, hlength]
    simp only [Option.getD_some]
    ring

theorem Spells.positional_eq (h : Spells base text ds) :
    positional base text.toList = Nat.ofDigits base ds.reverse := positional_of_values h.values

theorem Spells.ofDigits_lt (h : Spells base text ds) (hbase : 1 < base) :
    Nat.ofDigits base ds.reverse < base ^ ds.length := by
  have hlt := Nat.ofDigits_lt_base_pow_length (b := base) (l := ds.reverse) hbase
    fun d hd => h.below d (List.mem_reverse.1 hd)
  rwa [List.length_reverse] at hlt

theorem exists_values {cs : List Char} (h : ∀ c ∈ cs, ∃ d < base, digitValue? c = some d) :
    ∃ ds : List Nat, cs.map digitValue? = ds.map some ∧ ∀ d ∈ ds, d < base := by
  induction cs with
  | nil => exact ⟨[], rfl, by simp⟩
  | cons c rest ih =>
    obtain ⟨⟨d, hd, hc⟩, hrest⟩ := List.forall_mem_cons.1 h
    obtain ⟨ds, hmap, hds⟩ := ih hrest
    exact ⟨d :: ds, by rw [List.map_cons, List.map_cons, hc, hmap],
      List.forall_mem_cons.2 ⟨hd, hds⟩⟩

theorem exists_spells (h : ∀ c ∈ text.toList, ∃ d < base, digitValue? c = some d) :
    ∃ ds, Spells base text ds := by
  obtain ⟨ds, hmap, hds⟩ := exists_values h
  exact ⟨ds, hmap, hds⟩

theorem Spells.digitValue? (h : Spells base text ds) {c : Char} (hc : c ∈ text.toList) :
    ∃ d < base, Text.digitValue? c = some d := by
  have hmem : Text.digitValue? c ∈ text.toList.map Text.digitValue? := List.mem_map_of_mem hc
  rw [h.values] at hmem
  obtain ⟨d, hd, heq⟩ := List.mem_map.1 hmem
  exact ⟨d, h.below d hd, heq.symm⟩

theorem exists_spells_fixedWidth (hpos : 0 < base) (hle : base ≤ 16) (width n : Nat) :
    ∃ ds, Spells base (fixedWidth base width n) ds := by
  have hdigit (d : Nat) (hd : d < base) : ∃ e < base, digitValue? (Nat.digitChar d) = some e :=
    ⟨d, hd, digitValue?_digitChar (Nat.lt_of_lt_of_le hd hle)⟩
  refine exists_spells ?_
  rw [fixedWidth, String.toList_ofList]
  exact forall_mem_lowDigits hpos hdigit (by simp)

theorem digitValue?_lt_two {c : Char} :
    (∃ d < 2, Text.digitValue? c = some d) ↔ c = '0' ∨ c = '1' := by
  constructor
  · rintro ⟨d, hd, hc⟩
    unfold Text.digitValue? at hc
    split_ifs at hc with hdecimal
    · have hlow : '0'.toNat ≤ c.toNat := hdecimal.1
      have hvalue := Option.some.inj hc
      have hzero : '0'.toNat = 48 := rfl
      have hone : '1'.toNat = 49 := rfl
      rcases Nat.lt_or_ge c.toNat 49 with hlt | hge
      · exact .inl (Char.toNat_inj.1 (by omega))
      · exact .inr (Char.toNat_inj.1 (by omega))
    · have hvalue := Option.some.inj hc
      omega
    · have hvalue := Option.some.inj hc
      omega
  · rintro (rfl | rfl)
    · exact ⟨0, by decide, rfl⟩
    · exact ⟨1, by decide, rfl⟩

theorem digitValue?_lt_sixteen {c : Char} :
    (∃ d < 16, Text.digitValue? c = some d) ↔ (Text.digitValue? c).isSome = true := by
  constructor
  · rintro ⟨d, -, hc⟩
    rw [hc]
    rfl
  · intro h
    obtain ⟨d, hc⟩ := Option.isSome_iff_exists.1 h
    refine ⟨d, ?_, hc⟩
    unfold Text.digitValue? at hc
    have h0 : '0'.toNat = 48 := rfl
    have ha : 'a'.toNat = 97 := rfl
    have hA : 'A'.toNat = 65 := rfl
    split_ifs at hc with hdecimal hlower hupper
    · have hhigh : c.toNat ≤ 57 := hdecimal.2
      have hvalue := Option.some.inj hc
      omega
    · have hhigh : c.toNat ≤ 102 := hlower.2
      have hvalue := Option.some.inj hc
      omega
    · have hhigh : c.toNat ≤ 70 := hupper.2
      have hvalue := Option.some.inj hc
      omega

end Text

/-! ## Constants -/

namespace Term

variable {digits : String} {t : Term}

/-- A reader that looks for digits accepts the texts that spell some number. -/
theorem reads_digits_iff {base : Nat} {p : Char → Bool} {u : Term} {empty invalid : TermError}
    (hp : ∀ c, p c = true ↔ ∃ d < base, Text.digitValue? c = some d) :
    (if digits.isEmpty then .error empty
      else if digits.toList.all p then .ok u else .error invalid) = Except.ok t ↔
      t = u ∧ digits ≠ "" ∧ ∃ ds, Text.Spells base digits ds := by
  have hall : digits.toList.all p = true ↔ ∃ ds, Text.Spells base digits ds := by
    rw [List.all_eq_true]
    exact ⟨fun h => Text.exists_spells fun c hc => (hp c).1 (h c hc),
      fun ⟨_, h⟩ c hc => (hp c).2 (h.digitValue? hc)⟩
  split_ifs with hempty hdigits
  · simp [String.isEmpty_iff.1 hempty]
  · have hne : digits ≠ "" := fun h => hempty (String.isEmpty_iff.2 h)
    simp [hne, ← hall, hdigits, eq_comm]
  · simp [← hall, hdigits]

theorem parseBinary_eq_ok : parseBinary digits = .ok t ↔
    t = .binary digits ∧ digits ≠ "" ∧ ∃ ds, Text.Spells 2 digits ds :=
  reads_digits_iff fun c => by
    rw [Bool.or_eq_true, decide_eq_true_eq, decide_eq_true_eq, Text.digitValue?_lt_two]

theorem parseHex_eq_ok : parseHex digits = .ok t ↔
    t = .hex digits ∧ digits ≠ "" ∧ ∃ ds, Text.Spells 16 digits ds :=
  reads_digits_iff fun _ => Text.digitValue?_lt_sixteen.symm

/-- A constant is built exactly of the values that fit a width from 1 to 64. -/
theorem bits_eq (v : UInt64) (w : Int) : Term.bits v w =
    if 1 ≤ w ∧ w ≤ 64 then
      if v.toNat < 2 ^ w.toNat then .ok (.word w.toNat v.toNat) else .error (.valueTooLarge v)
    else .error (.invalidWidth w) := by
  have hshift : v.toNat >>> w.toNat ≠ 0 ↔ ¬v.toNat < 2 ^ w.toNat := by
    rw [Nat.shiftRight_eq_div_pow, ne_eq, Nat.div_eq_zero_iff_lt (Nat.two_pow_pos _)]
  have hrange : (w ≤ 0 || w > 64) = true ↔ ¬(1 ≤ w ∧ w ≤ 64) := by
    rw [Bool.or_eq_true, decide_eq_true_eq, decide_eq_true_eq]
    omega
  unfold Term.bits
  simp only [hrange, hshift, ite_not]

theorem constantWidth_word (w n : Nat) : (Term.word w n).constantWidth = w := by
  unfold Term.word
  split_ifs with hw
  · rw [constantWidth, Text.length_fixedWidth, Nat.div_mul_cancel (Nat.dvd_of_mod_eq_zero hw)]
  · exact Text.length_fixedWidth 2 w n

end Term

namespace Propagation

open Text (Spells)

variable {base width : Nat} {digits : String} {ds : List Nat}

theorem constant_of_spells (h : Spells base digits ds) (hbase : 1 < base)
    (hsize : base ^ ds.length = 2 ^ width) (narrow : width ≤ 64) :
    ∃ v : UInt64, v.toNat = Nat.ofDigits base ds.reverse ∧
      constant base digits width = .ok (.bits v (Int64.ofNat width)) := by
  have hlt : Nat.ofDigits base ds.reverse < 2 ^ width := hsize ▸ h.ofDigits_lt hbase
  have hword : (Nat.ofDigits base ds.reverse).toUInt64.toNat = Nat.ofDigits base ds.reverse := by
    simpa using Nat.lt_of_lt_of_le hlt (Nat.pow_le_pow_right (by decide) narrow)
  refine ⟨_, hword, ?_⟩
  rw [constant, if_neg (by omega), h.positional_eq, Value.ofWord]
  congr 2
  rw [← UInt64.toNat_inj, toNat_cut narrow, hword, Nat.mod_eq_of_lt hlt]

theorem constant_of_wide (wide : 64 < width) :
    constant base digits width = .error (.unsupported "constant wider than 64 bits") := by
  rw [constant, if_pos wide]

/-- What evaluation makes of a constant of digits: the number that they stand for, in the width of
the constant, and a refusal of a constant wider than 64 bits. -/
def State.ReadsDigits (s : State) (t : Term) (base : Nat) (digits : String) : Prop :=
  ∃ ds, Spells base digits ds ∧
    if t.constantWidth ≤ 64 then
      ∃ v : UInt64, v.toNat = Nat.ofDigits base ds.reverse ∧
        s.eval t = .ok (.bits v (Int64.ofNat t.constantWidth))
    else s.eval t = .error (.unsupported "constant wider than 64 bits")

/-- Evaluation reads a constant in its base, if as many digits fill its width. -/
theorem State.readsDigits {s : State} {t : Term} (h : Spells base digits ds) (hbase : 1 < base)
    (heval : s.eval t = constant base digits t.constantWidth)
    (hsize : base ^ digits.length = 2 ^ t.constantWidth) : s.ReadsDigits t base digits := by
  refine ⟨ds, h, ?_⟩
  rw [heval]
  split_ifs with narrow
  · exact constant_of_spells h hbase (h.length_eq ▸ hsize) narrow
  · exact constant_of_wide (by omega)

theorem State.readsDigits_binary (s : State) (h : Spells 2 digits ds) :
    s.ReadsDigits (.binary digits) 2 digits :=
  State.readsDigits h (by decide) (by rw [State.eval, Term.constantWidth]) rfl

theorem State.readsDigits_hex (s : State) (h : Spells 16 digits ds) :
    s.ReadsDigits (.hex digits) 16 digits := by
  refine State.readsDigits h (by decide) (by rw [State.eval, Term.constantWidth]) ?_
  rw [Term.constantWidth, Nat.mul_comm, Nat.pow_mul]

/-- A value that is written in as many digits as fill the width is read back. -/
theorem State.ReadsDigits.eval_fixedWidth {s : State} {t : Term} {v : UInt64} {w : Nat}
    (h : s.ReadsDigits t base (Text.fixedWidth base w v.toNat)) (hpos : 0 < base)
    (hle : base ≤ 16) (hsize : base ^ w = 2 ^ t.constantWidth) (narrow : t.constantWidth ≤ 64)
    (fits : v.toNat < 2 ^ t.constantWidth) :
    s.eval t = .ok (.bits v (Int64.ofNat t.constantWidth)) := by
  obtain ⟨ds, hds, hvalue⟩ := h
  rw [if_pos narrow] at hvalue
  obtain ⟨u, hu, heval⟩ := hvalue
  rw [← hds.positional_eq, Text.positional_fixedWidth hpos hle, hsize, Nat.mod_eq_of_lt fits] at hu
  rw [heval, UInt64.toNat_inj.1 hu]

/-- The constant of a value reads as the value, and the reader of its base accepts its digits. -/
theorem State.reads_word (s : State) {v : UInt64} (pos : 0 < width) (narrow : width ≤ 64)
    (fits : v.toNat < 2 ^ width) :
    (∃ digits, if 4 ∣ width then
        .word width v.toNat = Term.hex digits ∧ Term.parseHex digits = .ok (.hex digits)
      else
        .word width v.toNat = Term.binary digits ∧
          Term.parseBinary digits = .ok (.binary digits)) ∧
    s.eval (.word width v.toNat) = .ok (.bits v (Int64.ofNat width)) := by
  have hwidth := Term.constantWidth_word width v.toNat
  have hnonempty {base w : Nat} (hw : 0 < w) : Text.fixedWidth base w v.toNat ≠ "" := by
    intro h
    have hlength := Text.length_fixedWidth base w v.toNat
    rw [h, String.length_empty] at hlength
    omega
  by_cases hw : 4 ∣ width
  · obtain ⟨ds, hds⟩ : ∃ ds, Spells 16 (Text.fixedWidth 16 (width / 4) v.toNat) ds :=
      Text.exists_spells_fixedWidth (by decide) (by decide) _ _
    have hword : Term.word width v.toNat = .hex (Text.fixedWidth 16 (width / 4) v.toNat) :=
      if_pos (Nat.mod_eq_zero_of_dvd hw)
    have hsize : 16 ^ (width / 4) = 2 ^ width := by
      rw [show 16 = 2 ^ 4 by rfl, ← Nat.pow_mul, Nat.mul_div_cancel' hw]
    have hparse := Term.parseHex_eq_ok.2 ⟨rfl, hnonempty (by omega), ds, hds⟩
    refine ⟨⟨_, by rw [if_pos hw]; exact ⟨hword, hparse⟩⟩, ?_⟩
    have heval := (s.readsDigits_hex hds).eval_fixedWidth (by decide) (by decide)
    rw [← hword, hwidth] at heval
    exact heval hsize narrow fits
  · obtain ⟨ds, hds⟩ : ∃ ds, Spells 2 (Text.fixedWidth 2 width v.toNat) ds :=
      Text.exists_spells_fixedWidth (by decide) (by decide) _ _
    have hword : Term.word width v.toNat = .binary (Text.fixedWidth 2 width v.toNat) :=
      if_neg fun h => hw (Nat.dvd_of_mod_eq_zero h)
    have hparse := Term.parseBinary_eq_ok.2 ⟨rfl, hnonempty pos, ds, hds⟩
    refine ⟨⟨_, by rw [if_neg hw]; exact ⟨hword, hparse⟩⟩, ?_⟩
    have heval := (s.readsDigits_binary hds).eval_fixedWidth (by decide) (by decide)
    rw [← hword, hwidth] at heval
    exact heval rfl narrow fits

/-- A constant is built of each value that fits a width from 1 to 64, and of nothing else; the
reader of its base accepts it, and it reads as the value. The accepted numerals are the decimal
forms of the numbers below 2^64, and accepted digits read as the number they stand for. -/
theorem constants_read_back (s : State) :
    (∀ (v : UInt64) (w : Nat), 1 ≤ w → w ≤ 64 → v.toNat < 2 ^ w →
      ∃ t, Term.bits v w = .ok t ∧ t.constantWidth = w ∧
        (∃ digits, if 4 ∣ w then t = .hex digits ∧ Term.parseHex digits = .ok t
          else t = .binary digits ∧ Term.parseBinary digits = .ok t) ∧
        s.eval t = .ok (.bits v (Int64.ofNat w))) ∧
    (∀ (v : UInt64) (w : Int), ¬(1 ≤ w ∧ w ≤ 64 ∧ v.toNat < 2 ^ w.toNat) →
      Term.bits v w = .error (.invalidWidth w) ∨ Term.bits v w = .error (.valueTooLarge v)) ∧
    (∀ (digits : String) (n : Nat),
      (∃ m, Numeral.parse digits = .ok m ∧ m.value.toNat = n) ↔ n < 2 ^ 64 ∧ digits = n.repr) ∧
    (∀ digits t, Term.parseBinary digits = .ok t →
      t = .binary digits ∧ s.ReadsDigits t 2 digits) ∧
    ∀ digits t, Term.parseHex digits = .ok t → t = .hex digits ∧ s.ReadsDigits t 16 digits := by
  refine ⟨?built, ?refused, ?numerals, ?binary, ?hex⟩
  case built =>
    intro v w pos narrow fits
    obtain ⟨⟨digits, hdigits⟩, heval⟩ := s.reads_word pos narrow fits
    refine ⟨.word w v.toNat, ?_, Term.constantWidth_word w v.toNat, ⟨digits, ?_⟩, heval⟩
    · rw [Term.bits_eq, if_pos (by omega), Int.toNat_natCast, if_pos fits]
    · split_ifs at hdigits ⊢
      · exact ⟨hdigits.1, hdigits.1 ▸ hdigits.2⟩
      · exact ⟨hdigits.1, hdigits.1 ▸ hdigits.2⟩
  case refused =>
    intro v w h
    rw [Term.bits_eq]
    split_ifs with hrange hfits
    · exact absurd ⟨hrange.1, hrange.2, hfits⟩ h
    · exact .inr rfl
    · exact .inl rfl
  case numerals =>
    intro digits n
    constructor
    · rintro ⟨m, hm, rfl⟩
      exact ⟨m.value.toNat_lt, Numeral.parse_eq_ok.1 hm⟩
    · rintro ⟨hn, rfl⟩
      have hnat : n.toUInt64.toNat = n := by simpa using hn
      refine ⟨⟨n.toUInt64⟩, Numeral.parse_eq_ok.2 ?_, hnat⟩
      rw [Numeral.text, hnat]
      rfl
  case binary =>
    intro digits t h
    obtain ⟨rfl, -, ds, hds⟩ := Term.parseBinary_eq_ok.1 h
    exact ⟨rfl, s.readsDigits_binary hds⟩
  case hex =>
    intro digits t h
    obtain ⟨rfl, -, ds, hds⟩ := Term.parseHex_eq_ok.1 h
    exact ⟨rfl, s.readsDigits_hex hds⟩

/-- The greatest word of 64 bits as a constant and as a numeral. -/
theorem constants_read_back_widest :
    (∃ t, Term.bits 18446744073709551615 64 = .ok t ∧
      State.eval {} t = .ok (.bits 18446744073709551615 64)) ∧
    ∃ m, Numeral.parse "18446744073709551615" = .ok m ∧
      m.value.toNat = 18446744073709551615 := by
  obtain ⟨built, -, numerals, -⟩ := constants_read_back {}
  obtain ⟨t, ht, -, -, heval⟩ := built 18446744073709551615 64 (by decide) (by decide) (by decide)
  exact ⟨⟨t, ht, heval⟩, (numerals _ _).2 ⟨by decide, by decide⟩⟩

end Propagation

end CycleCheck
