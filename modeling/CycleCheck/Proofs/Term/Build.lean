import CycleCheck.Proofs.Term.Meaning
import Mathlib.Tactic.IntervalCases
import Mathlib.Tactic.Ring

/-!
The meaning of built terms. A constant means the low bits of its number; the builders for words
and arrays mean the operations on words and arrays.
-/

namespace CycleCheck

/-! ## Digits -/

namespace Text

theorem digitValue?_digitChar {d : Nat} (h : d < 16) : digitValue? (Nat.digitChar d) = some d := by
  interval_cases d <;> decide

theorem length_lowDigits (base count n : Nat) (acc : List Char) :
    (lowDigits base count n acc).length = count + acc.length := by
  induction count generalizing n acc with
  | zero => simp [lowDigits]
  | succ count ih =>
    rw [lowDigits, ih, List.length_cons]
    omega

theorem forall_mem_lowDigits {P : Char → Prop} {base : Nat} (hpos : 0 < base)
    (hdigit : ∀ d < base, P (Nat.digitChar d)) {count n : Nat} {acc : List Char}
    (hacc : ∀ c ∈ acc, P c) : ∀ c ∈ lowDigits base count n acc, P c := by
  induction count generalizing n acc with
  | zero => exact hacc
  | succ count ih =>
    exact ih (List.forall_mem_cons.2 ⟨hdigit _ (Nat.mod_lt n hpos), hacc⟩)

theorem foldl_positional (base : Nat) (cs : List Char) (start : Nat) :
    cs.foldl (fun n c => n * base + (digitValue? c).getD 0) start =
      start * base ^ cs.length + positional base cs := by
  unfold positional
  induction cs generalizing start with
  | nil => simp
  | cons c rest ih =>
    rw [List.foldl_cons, List.foldl_cons, ih, ih (0 * base + _), List.length_cons, Nat.pow_succ]
    ring

/-- The lowest digits of a number stand for its remainder. -/
theorem positional_lowDigits {base : Nat} (hpos : 0 < base) (hle : base ≤ 16) (count n : Nat)
    (acc : List Char) : positional base (lowDigits base count n acc) =
      n % base ^ count * base ^ acc.length + positional base acc := by
  induction count generalizing n acc with
  | zero => simp [lowDigits, Nat.mod_one]
  | succ count ih =>
    have hdigit := digitValue?_digitChar (Nat.lt_of_lt_of_le (Nat.mod_lt n hpos) hle)
    have hcons : positional base (Nat.digitChar (n % base) :: acc) =
        n % base * base ^ acc.length + positional base acc := by
      rw [positional, List.foldl_cons, foldl_positional, hdigit]
      simp
    have hsplit : n % base ^ (count + 1) = n % base + base * (n / base % base ^ count) := by
      rw [Nat.pow_succ, Nat.mul_comm, Nat.mod_mul]
    rw [lowDigits, ih, hcons, hsplit, List.length_cons, Nat.pow_succ]
    ring

theorem length_fixedWidth (base width n : Nat) : (fixedWidth base width n).length = width := by
  simp [fixedWidth, length_lowDigits]

theorem positional_fixedWidth {base : Nat} (hpos : 0 < base) (hle : base ≤ 16) (width n : Nat) :
    positional base (fixedWidth base width n).toList = n % base ^ width := by
  rw [fixedWidth, String.toList_ofList, positional_lowDigits hpos hle]
  simp [positional]

end Text

theorem Meaning.bits_congr {v w : Nat} {x : BitVec v} {y : BitVec w} (hw : v = w)
    (h : x.toNat = y.toNat) : Meaning.bits v x = .bits w y := by
  subst hw
  rw [BitVec.eq_of_toNat_eq h]

namespace Interpretation

variable {I : Interpretation}

/-! ## Constants -/

@[simp] theorem denote_word (w n : Nat) : I.denote (.word w n) = .bits w (.ofNat w n) := by
  unfold Term.word
  split_ifs with hw
  · have hwidth : w / 4 * 4 = w := by omega
    refine Meaning.bits_congr (by rw [Text.length_fixedWidth, hwidth]) ?_
    rw [BitVec.toNat_ofNat, BitVec.toNat_ofNat, Text.length_fixedWidth,
      Text.positional_fixedWidth (by decide) (by decide), hwidth]
    have hpow : 16 ^ (w / 4) = 2 ^ w := by
      rw [show (16 : Nat) = 2 ^ 4 by rfl, ← Nat.pow_mul, Nat.mul_comm, hwidth]
    rw [hpow, Nat.mod_mod]
  · refine Meaning.bits_congr (Text.length_fixedWidth 2 w n) ?_
    rw [BitVec.toNat_ofNat, BitVec.toNat_ofNat, Text.length_fixedWidth,
      Text.positional_fixedWidth (by decide) (by decide), Nat.mod_mod]

@[simp] theorem denote_bit (b : Bool) : I.denote (.bit b) = .bits 1 (.ofBool b) := by
  cases b <;> exact Meaning.bits_congr rfl (by decide)

/-! ## Connectives -/

theorem holds_all {ts : List Term} : I.Holds (.all ts) ↔ ∀ t ∈ ts, I.Holds t := by
  match ts with
  | [] => exact iff_of_true rfl (by simp)
  | [t] => simp [Term.all]
  | _ :: _ :: _ => exact I.holds_and

/-! ## Words -/

section Words

variable {a b : Term} {v w : Nat} {x : BitVec v} {y z : BitVec w}

theorem denote_add (ha : I.denote a = .bits w y) (hb : I.denote b = .bits w z) :
    I.denote (.add a b) = .bits w (y + z) := by
  change (I.denote a).words (fun _ u v => u + v) (I.denote b) = _
  rw [ha, hb, Meaning.words, BitVec.setWidth_eq]

theorem denote_sub (ha : I.denote a = .bits w y) (hb : I.denote b = .bits w z) :
    I.denote (.sub a b) = .bits w (y - z) := by
  change (I.denote a).words (fun _ u v => u - v) (I.denote b) = _
  rw [ha, hb, Meaning.words, BitVec.setWidth_eq]

theorem denote_concat (ha : I.denote a = .bits v x) (hb : I.denote b = .bits w y) :
    I.denote (.concat a b) = .bits (v + w) (x ++ y) := by
  change (I.denote a).append (I.denote b) = _
  rw [ha, hb, Meaning.append]

theorem denote_extract {hi lo : Nat} (hhi : hi < 2 ^ 64) (hlo : lo < 2 ^ 64)
    (ha : I.denote a = .bits w y) :
    I.denote (.extract hi lo a) = .bits (hi - lo + 1) (y.extractLsb' lo (hi - lo + 1)) := by
  have hhi' : hi.toUInt64.toNat = hi := by simpa using hhi
  have hlo' : lo.toUInt64.toNat = lo := by simpa using hlo
  change (I.denote a).extract hi.toUInt64.toNat lo.toUInt64.toNat = _
  rw [hhi', hlo', ha]
  rfl

theorem denote_zeroExtend {n : Nat} (hn : n < 2 ^ 64) (ha : I.denote a = .bits w y) :
    I.denote (.zeroExtend n a) = .bits (w + n) (y.setWidth (w + n)) := by
  have hn' : n.toUInt64.toNat = n := by simpa using hn
  change (I.denote a).zeroExtend n.toUInt64.toNat = _
  rw [hn', ha]
  rfl

theorem holds_uge (ha : I.denote a = .bits w y) (hb : I.denote b = .bits w z) :
    I.Holds (.uge a b) ↔ z.toNat ≤ y.toNat := by
  change (I.denote a).compare (fun _ u v => v.ule u) (I.denote b) = _ ↔ _
  rw [ha, hb, Meaning.compare, BitVec.setWidth_eq, Meaning.truth.injEq, BitVec.ule_eq_decide,
    decide_eq_true_eq]

theorem holds_eq_bits (ha : I.denote a = .bits w y) (hb : I.denote b = .bits w z) :
    I.Holds (.eq a b) ↔ y = z := by
  rw [Term.eq, holds_eq, ha, hb]
  simp

/-- A choice by an equality. -/
theorem denote_ite_eq {c e : Term} (hc : I.denote c = .bits w y) (he : I.denote e = .bits w z) :
    I.denote (.ite (.eq c e) a b) = if y = z then I.denote a else I.denote b := by
  have hchoose : I.denote (.ite (.eq c e) a b) =
      (I.denote (.eq c e)).choose (I.denote a) (I.denote b) := rfl
  rw [hchoose, Term.eq, denote_eq, hc, he]
  by_cases hyz : y = z
  · simp [hyz, Meaning.choose]
  · simp [hyz, Meaning.choose]

end Words

/-! ## Arrays -/

section Arrays

variable {a i v : Term} {n d : Nat} {cells : BitVec n → BitVec d} {x : BitVec n} {y : BitVec d}

theorem denote_select (ha : I.denote a = .array n d cells) (hi : I.denote i = .bits n x) :
    I.denote (.select a i) = .bits d (cells x) := by
  change (I.denote a).select (I.denote i) = _
  rw [ha, hi, Meaning.select, BitVec.setWidth_eq]

theorem denote_store (ha : I.denote a = .array n d cells) (hi : I.denote i = .bits n x)
    (hv : I.denote v = .bits d y) :
    I.denote (.store a i v) = .array n d (Function.update cells x y) := by
  change (I.denote a).store (I.denote i) (I.denote v) = _
  rw [ha, hi, hv, Meaning.store, BitVec.setWidth_eq, BitVec.setWidth_eq]

end Arrays

/-! ## Formulas -/

section Formulas

variable {f g : Formula}

@[simp] theorem satisfies_nil : I.Satisfies [] := by simp [Satisfies]

@[simp] theorem satisfies_append : I.Satisfies (f ++ g) ↔ I.Satisfies f ∧ I.Satisfies g := by
  simp only [Satisfies, List.mem_append, or_imp, forall_and]

@[simp] theorem satisfies_assert {t : Term} :
    I.Satisfies (.assert t :: f) ↔ I.Holds t ∧ I.Satisfies f := by
  simp only [Satisfies, List.mem_cons, Command.assert.injEq, or_imp, forall_and, forall_eq]

@[simp] theorem satisfies_declareBits {x : Symbol} {w : Numeral} :
    I.Satisfies (.declareBits x w :: f) ↔ I.Satisfies f := by
  simp [Satisfies]

@[simp] theorem satisfies_declareArray {x : Symbol} {a d : Numeral} :
    I.Satisfies (.declareArray x a d :: f) ↔ I.Satisfies f := by
  simp [Satisfies]

@[simp] theorem satisfies_note {text : String} :
    I.Satisfies (.note text :: f) ↔ I.Satisfies f := by
  simp [Satisfies, Command.note]

theorem satisfies_map_assert {α : Type} {l : List α} {t : α → Term} :
    I.Satisfies (l.map fun a => .assert (t a)) ↔ ∀ a ∈ l, I.Holds (t a) := by
  simp only [Satisfies, List.mem_map, Command.assert.injEq]
  exact ⟨fun h a ha => h _ ⟨a, ha, rfl⟩, fun h _ ⟨a, ha, hat⟩ => hat ▸ h a ha⟩

theorem satisfies_of_forall₂ {α : Type} {l : List α} {p : α → Prop}
    (h : List.Forall₂ (fun a c => ∃ t, c = Command.assert t ∧ (I.Holds t ↔ p a)) l f) :
    I.Satisfies f ↔ ∀ a ∈ l, p a := by
  induction h with
  | nil => simp
  | cons first _ ih =>
    obtain ⟨t, rfl, ht⟩ := first
    rw [satisfies_assert, List.forall_mem_cons, ht, ih]

theorem satisfies_flatten {fs : List Formula} :
    I.Satisfies fs.flatten ↔ ∀ f ∈ fs, I.Satisfies f := by
  simp only [Satisfies, List.mem_flatten]
  exact ⟨fun h f hf t ht => h t ⟨f, hf, ht⟩, fun h t ⟨f, hf, ht⟩ => h f hf t ht⟩

theorem fits_append : I.Fits (f ++ g).signature ↔ I.Fits f.signature ∧ I.Fits g.signature := by
  simp only [Fits, Formula.signature, List.filterMap_append, List.mem_append, or_imp, forall_and]

theorem fits_flatten {fs : List Formula} :
    I.Fits (Formula.signature fs.flatten) ↔ ∀ f ∈ fs, I.Fits f.signature := by
  induction fs with
  | nil => simp [Fits, Formula.signature]
  | cons f rest ih => rw [List.flatten_cons, fits_append, ih, List.forall_mem_cons]

end Formulas

/-- Symbols can be given any values, and the others keep theirs. -/
theorem exists_values (I : Interpretation) {vs : List (String × Meaning)}
    (h : (vs.map Prod.fst).Nodup) :
    ∃ J : Interpretation, (∀ v ∈ vs, J v.1 = v.2) ∧ ∀ y ∉ vs.map Prod.fst, J y = I y := by
  induction vs with
  | nil => exact ⟨I, by simp, fun _ _ => rfl⟩
  | cons v rest ih =>
    obtain ⟨hnew, hrest⟩ := List.nodup_cons.1 h
    obtain ⟨J, hJ, hothers⟩ := ih hrest
    refine ⟨Function.update J v.1 v.2, List.forall_mem_cons.2 ⟨Function.update_self .., ?_⟩, ?_⟩
    · intro u hu
      have hne : u.1 ≠ v.1 := fun heq => hnew (heq ▸ List.mem_map_of_mem hu)
      rw [Function.update_of_ne hne, hJ u hu]
    · intro y hy
      rw [List.map_cons, List.mem_cons, not_or] at hy
      rw [Function.update_of_ne hy.1, hothers y hy.2]

/-- The symbols that a formula declares can be given any values of their sorts. -/
theorem exists_fits_values (I : Interpretation) {f : Formula} {vs : List (String × Meaning)}
    (signature : f.signature = vs.map fun v => (v.1, v.2.kind)) (h : (vs.map Prod.fst).Nodup) :
    ∃ J : Interpretation, (∀ v ∈ vs, J v.1 = v.2) ∧ J.Fits f.signature ∧
      ∀ y, (∀ k, (y, k) ∉ f.signature) → J y = I y := by
  obtain ⟨J, hJ, hothers⟩ := I.exists_values h
  refine ⟨J, hJ, fun y k hy => ?_, fun y hy => hothers y fun hmem => ?_⟩
  · rw [signature] at hy
    obtain ⟨v, hv, heq⟩ := List.mem_map.1 hy
    cases heq
    rw [hJ v hv]
  · obtain ⟨v, hv, rfl⟩ := List.mem_map.1 hmem
    exact hy v.2.kind (signature ▸ List.mem_map_of_mem hv)

end Interpretation

end CycleCheck
