import CycleCheck.Formula
import Mathlib.Logic.Function.Basic
import Mathlib.Tactic.Common

/-!
The meaning of terms. A bit-vector symbol stands for a word of its width, an array symbol for a
function from addresses to data, and operators have their usual meaning on words of any width.
Arrays are equal when they have equal cells. `denote` is total: an application whose arguments do
not fit its operator means `false`, which no well sorted term meets (`kind_denote`).
-/

namespace CycleCheck

/-- The sorts of terms. -/
inductive Kind where
  | truth
  | bits (width : Nat)
  | array (address data : Nat)
deriving DecidableEq

/-- A value of a sort. -/
inductive Meaning where
  | truth (b : Bool)
  | bits (width : Nat) (v : BitVec width)
  | array (address data : Nat) (cells : BitVec address → BitVec data)

namespace Meaning

def kind : Meaning → Kind
  | .truth _ => .truth
  | .bits w _ => .bits w
  | .array a d _ => .array a d

def isTrue : Meaning → Bool
  | .truth b => b
  | _ => false

/-- An operation on two words; the second one is taken at the width of the first. -/
def words (f : (w : Nat) → BitVec w → BitVec w → BitVec w) : Meaning → Meaning → Meaning
  | .bits w a, .bits _ b => .bits w (f w a (b.setWidth w))
  | _, _ => .truth false

/-- A comparison of two words. -/
def compare (f : (w : Nat) → BitVec w → BitVec w → Bool) : Meaning → Meaning → Meaning
  | .bits w a, .bits _ b => .truth (f w a (b.setWidth w))
  | _, _ => .truth false

def complement : Meaning → Meaning
  | .bits w a => .bits w (~~~ a)
  | _ => .truth false

def append : Meaning → Meaning → Meaning
  | .bits v a, .bits w b => .bits (v + w) (a ++ b)
  | _, _ => .truth false

def extract (hi lo : Nat) : Meaning → Meaning
  | .bits _ a => .bits (hi - lo + 1) (a.extractLsb' lo (hi - lo + 1))
  | _ => .truth false

def zeroExtend (n : Nat) : Meaning → Meaning
  | .bits w a => .bits (w + n) (a.setWidth (w + n))
  | _ => .truth false

def select : Meaning → Meaning → Meaning
  | .array a d cells, .bits _ i => .bits d (cells (i.setWidth a))
  | _, _ => .truth false

def store : Meaning → Meaning → Meaning → Meaning
  | .array a d cells, .bits _ i, .bits _ v =>
      .array a d (Function.update cells (i.setWidth a) (v.setWidth d))
  | _, _, _ => .truth false

def choose : Meaning → Meaning → Meaning → Meaning
  | .truth c, a, b => if c then a else b
  | _, _, _ => .truth false

end Meaning

open Classical in
/-- What an operator makes of the meanings of its arguments. -/
noncomputable def Op.meaning (op : Op) (indices : List Numeral) (ms : List Meaning) : Meaning :=
  match op, indices, ms with
  | .and, _, ms => .truth (ms.all Meaning.isTrue)
  | .or, _, ms => .truth (ms.any Meaning.isTrue)
  | .xor, _, ms => .truth (ms.foldl (fun b m => b != m.isTrue) false)
  | .not, _, [a] => .truth (!a.isTrue)
  | .implies, _, [a, b] => .truth (!a.isTrue || b.isTrue)
  | .eq, _, ms => .truth (decide (ms.IsChain (· = ·)))
  | .distinct, _, ms => .truth (decide (ms.Pairwise (· ≠ ·)))
  | .ite, _, [c, a, b] => .choose c a b
  | .bvadd, _, [a, b] => a.words (fun _ x y => x + y) b
  | .bvsub, _, [a, b] => a.words (fun _ x y => x - y) b
  | .bvand, _, [a, b] => a.words (fun _ x y => x &&& y) b
  | .bvor, _, [a, b] => a.words (fun _ x y => x ||| y) b
  | .bvxor, _, [a, b] => a.words (fun _ x y => x ^^^ y) b
  | .bvshl, _, [a, b] => a.words (fun _ x y => x <<< y) b
  | .bvlshr, _, [a, b] => a.words (fun _ x y => x >>> y) b
  | .bvnot, _, [a] => a.complement
  | .bvult, _, [a, b] => a.compare (fun _ x y => x.ult y) b
  | .bvule, _, [a, b] => a.compare (fun _ x y => x.ule y) b
  | .bvugt, _, [a, b] => a.compare (fun _ x y => y.ult x) b
  | .bvuge, _, [a, b] => a.compare (fun _ x y => y.ule x) b
  | .concat, _, [a, b] => a.append b
  | .extract, [hi, lo], [a] => a.extract hi.value.toNat lo.value.toNat
  | .zeroExtend, [n], [a] => a.zeroExtend n.value.toNat
  | .select, _, [a, i] => a.select i
  | .store, _, [a, i, v] => a.store i v
  | _, _, _ => .truth false

/-- A value for every symbol. -/
abbrev Interpretation := String → Meaning

mutual

/-- The meaning of a term. -/
noncomputable def Interpretation.denote (I : Interpretation) : Term → Meaning
  | .symbol x => I x.name
  | .numeral _ => .truth false
  | .binary digits => .bits digits.length (.ofNat _ (Text.positional 2 digits.toList))
  | .hex digits => .bits (digits.length * 4) (.ofNat _ (Text.positional 16 digits.toList))
  | .bool b => .truth b
  | .app op indices args => op.meaning indices (I.denoteAll args)

noncomputable def Interpretation.denoteAll (I : Interpretation) : List Term → List Meaning
  | [] => []
  | t :: rest => I.denote t :: I.denoteAll rest

end

/-- An interpretation makes an assertion true. -/
def Interpretation.Holds (I : Interpretation) (t : Term) : Prop := I.denote t = .truth true

/-- An interpretation makes all assertions of a formula true. -/
def Interpretation.Satisfies (I : Interpretation) (f : Formula) : Prop :=
  ∀ t, Command.assert t ∈ f → I.Holds t

/-! ## Sorts -/

/-- The declared symbols with their sorts. -/
abbrev Signature := List (String × Kind)

/-- The symbol that a command declares. -/
def Command.declared? : Command → Option (String × Kind)
  | .declareBits x width => some (x.name, .bits width.value.toNat)
  | .declareArray x address data => some (x.name, .array address.value.toNat data.value.toNat)
  | _ => none

def Formula.signature (f : Formula) : Signature := f.filterMap Command.declared?

/-- The values of declared symbols have the declared sorts. -/
def Interpretation.Fits (I : Interpretation) (sig : Signature) : Prop :=
  ∀ x k, (x, k) ∈ sig → (I x).kind = k

/-- The sorts of the arguments and of the result of an operator. -/
inductive Rank : Op → List Numeral → List Kind → Kind → Prop where
  | connective {op : Op} {ks : List Kind} (which : op ∈ [Op.and, .or, .xor])
      (all : ∀ k ∈ ks, k = .truth) : Rank op [] ks .truth
  | not : Rank .not [] [.truth] .truth
  | implies : Rank .implies [] [.truth, .truth] .truth
  | equality {op : Op} {k : Kind} {ks : List Kind} (which : op ∈ [Op.eq, .distinct])
      (same : ∀ k' ∈ ks, k' = k) : Rank op [] ks .truth
  | ite {k : Kind} : Rank .ite [] [.truth, k, k] k
  | word {op : Op} {w : Nat}
      (which : op ∈ [Op.bvadd, .bvsub, .bvand, .bvor, .bvxor, .bvshl, .bvlshr]) :
      Rank op [] [.bits w, .bits w] (.bits w)
  | bvnot {w : Nat} : Rank .bvnot [] [.bits w] (.bits w)
  | comparison {op : Op} {w : Nat} (which : op ∈ [Op.bvult, .bvule, .bvugt, .bvuge]) :
      Rank op [] [.bits w, .bits w] .truth
  | concat {v w : Nat} : Rank .concat [] [.bits v, .bits w] (.bits (v + w))
  | extract {hi lo : Numeral} {w : Nat} (ordered : lo.value.toNat ≤ hi.value.toNat)
      (inside : hi.value.toNat < w) :
      Rank .extract [hi, lo] [.bits w] (.bits (hi.value.toNat - lo.value.toNat + 1))
  | zeroExtend {n : Numeral} {w : Nat} :
      Rank .zeroExtend [n] [.bits w] (.bits (w + n.value.toNat))
  | select {a d : Nat} : Rank .select [] [.array a d, .bits a] (.bits d)
  | store {a d : Nat} : Rank .store [] [.array a d, .bits a, .bits d] (.array a d)

namespace Rank

variable {op : Op} {indices : List Numeral} {ks : List Kind} {k : Kind}

theorem of_connective (h : Rank op indices ks k) (which : op ∈ [Op.and, .or, .xor]) :
    k = .truth ∧ ∀ k' ∈ ks, k' = .truth := by
  cases h with
  | connective _ all => exact ⟨rfl, all⟩
  | _ => grind

theorem of_equality (h : Rank op indices ks k) (which : op ∈ [Op.eq, .distinct]) :
    k = .truth ∧ ∃ k₀, ∀ k' ∈ ks, k' = k₀ := by
  cases h with
  | equality _ same => exact ⟨rfl, _, same⟩
  | _ => grind

theorem of_implies (h : Rank .implies indices ks k) : ks = [.truth, .truth] ∧ k = .truth := by
  cases h <;> simp_all

theorem of_ite (h : Rank .ite indices ks k) : ks = [.truth, k, k] := by
  cases h <;> simp_all

theorem of_select (h : Rank .select indices ks k) :
    ∃ a d, ks = [.array a d, .bits a] ∧ k = .bits d := by
  cases h <;> simp_all

theorem of_store (h : Rank .store indices ks k) :
    ∃ a d, ks = [.array a d, .bits a, .bits d] ∧ k = .array a d := by
  cases h <;> simp_all

end Rank

mutual

/-- A term is well sorted and has a sort. -/
def Term.HasKind (sig : Signature) : Term → Kind → Prop
  | .symbol x, k => (x.name, k) ∈ sig
  | .numeral _, _ => False
  | .binary digits, k => k = .bits digits.length
  | .hex digits, k => k = .bits (digits.length * 4)
  | .bool _, k => k = .truth
  | .app op indices args, k => ∃ ks, Term.HaveKinds sig args ks ∧ Rank op indices ks k

def Term.HaveKinds (sig : Signature) : List Term → List Kind → Prop
  | [], ks => ks = []
  | t :: rest, ks => ∃ k ks', ks = k :: ks' ∧ Term.HasKind sig t k ∧ Term.HaveKinds sig rest ks'

end

theorem Term.haveKinds_pair {sig : Signature} {a b : Term} {j k : Kind} :
    Term.HaveKinds sig [a, b] [j, k] ↔ a.HasKind sig j ∧ b.HasKind sig k := by
  simp [Term.HaveKinds]

theorem Term.haveKinds_triple {sig : Signature} {a b c : Term} {i j k : Kind} :
    Term.HaveKinds sig [a, b, c] [i, j, k] ↔
      a.HasKind sig i ∧ b.HasKind sig j ∧ c.HasKind sig k := by
  simp [Term.HaveKinds]

theorem Term.HaveKinds.mem {sig : Signature} {ts : List Term} {ks : List Kind}
    (h : Term.HaveKinds sig ts ks) {t : Term} (ht : t ∈ ts) : ∃ k ∈ ks, t.HasKind sig k := by
  induction ts generalizing ks with
  | nil => cases ht
  | cons u rest ih =>
    obtain ⟨k, ks, rfl, hk, hks⟩ := h
    rcases List.mem_cons.1 ht with rfl | ht
    · exact ⟨k, List.mem_cons_self, hk⟩
    · obtain ⟨k', hk', hkind⟩ := ih hks ht
      exact ⟨k', List.mem_cons_of_mem k hk', hkind⟩

mutual

/-- The indices of all zero extensions in a term are below a bound. -/
def Term.ExtensionsBelow (bound : Nat) : Term → Prop
  | .app op indices args =>
      (op = .zeroExtend → ∀ n ∈ indices, n.value.toNat < bound) ∧
        Term.AllExtensionsBelow bound args
  | _ => True

def Term.AllExtensionsBelow (bound : Nat) : List Term → Prop
  | [] => True
  | t :: rest => Term.ExtensionsBelow bound t ∧ Term.AllExtensionsBelow bound rest

end

theorem Term.allExtensionsBelow_iff {bound : Nat} {ts : List Term} :
    Term.AllExtensionsBelow bound ts ↔ ∀ t ∈ ts, t.ExtensionsBelow bound := by
  induction ts with
  | nil => simp [Term.AllExtensionsBelow]
  | cons t rest ih => simp [Term.AllExtensionsBelow, ih]

mutual

/-- Indices are words of 64 bits. -/
theorem Term.extensionsBelow_size : ∀ t : Term, t.ExtensionsBelow UInt64.size
  | .app _ _ args => ⟨fun _ n _ => n.value.toNat_lt_size, Term.allExtensionsBelow_size args⟩
  | .bool _ | .binary _ | .hex _ | .symbol _ | .numeral _ => trivial

theorem Term.allExtensionsBelow_size : ∀ ts : List Term, Term.AllExtensionsBelow UInt64.size ts
  | [] => trivial
  | t :: rest => ⟨t.extensionsBelow_size, Term.allExtensionsBelow_size rest⟩

end

/-- Every symbol is declared once and every assertion is a well sorted boolean. -/
structure Formula.WellSorted (f : Formula) : Prop where
  unique : (f.signature.map Prod.fst).Nodup
  asserted : ∀ t, Command.assert t ∈ f → t.HasKind f.signature .truth

/-- The indices of all zero extensions in a formula are below a bound. -/
def Formula.ExtensionsBelow (bound : Nat) (f : Formula) : Prop :=
  ∀ t, Command.assert t ∈ f → t.ExtensionsBelow bound

/-! ## Meanings have the sorts of terms -/

namespace Meaning

@[simp] theorem kind_truth (b : Bool) : (truth b).kind = .truth := rfl

@[simp] theorem kind_bits (w : Nat) (v : BitVec w) : (bits w v).kind = .bits w := rfl

@[simp] theorem kind_array (a d : Nat) (cells : BitVec a → BitVec d) :
    (array a d cells).kind = .array a d := rfl

@[simp] theorem isTrue_truth (b : Bool) : (truth b).isTrue = b := rfl

theorem eq_truth_of_kind {m : Meaning} (h : m.kind = .truth) : m = .truth m.isTrue := by
  cases m <;> simp_all [kind, isTrue]

theorem exists_bits_of_kind {m : Meaning} {w : Nat} (h : m.kind = .bits w) :
    ∃ v, m = .bits w v := by
  cases m with
  | bits w' v =>
    obtain rfl : w' = w := Kind.bits.inj h
    exact ⟨v, rfl⟩
  | _ => cases h

theorem exists_array_of_kind {m : Meaning} {a d : Nat} (h : m.kind = .array a d) :
    ∃ cells, m = .array a d cells := by
  cases m with
  | array a' d' cells =>
    obtain ⟨rfl, rfl⟩ := Kind.array.inj h
    exact ⟨cells, rfl⟩
  | _ => cases h

end Meaning

/-- The values of arguments have the sorts that are listed. -/
def Meaning.HaveKinds : List Meaning → List Kind → Prop := List.Forall₂ fun m k => m.kind = k

/-- An operator gives a value of the sort its rank says. -/
theorem Op.kind_meaning {op : Op} {indices : List Numeral} {ks : List Kind} {k : Kind}
    (rank : Rank op indices ks k) {ms : List Meaning} (h : Meaning.HaveKinds ms ks) :
    (op.meaning indices ms).kind = k := by
  cases rank with
  | connective which _ | equality which _ =>
    simp only [List.mem_cons, List.not_mem_nil, or_false] at which
    rcases which with rfl | rfl | rfl <;> simp [Op.meaning]
  | word which | comparison which =>
    obtain _ | ⟨ha, _ | ⟨hb, _ | _⟩⟩ := h
    obtain ⟨a, rfl⟩ := Meaning.exists_bits_of_kind ha
    obtain ⟨b, rfl⟩ := Meaning.exists_bits_of_kind hb
    simp only [List.mem_cons, List.not_mem_nil, or_false] at which
    rcases which with rfl | rfl | rfl | rfl | rfl | rfl | rfl <;>
      simp [Op.meaning, Meaning.words, Meaning.compare]
  | not =>
    obtain _ | ⟨_, _ | _⟩ := h
    rfl
  | implies =>
    obtain _ | ⟨_, _ | ⟨_, _ | _⟩⟩ := h
    rfl
  | ite =>
    obtain _ | ⟨hc, _ | ⟨ha, _ | ⟨hb, _ | _⟩⟩⟩ := h
    rw [Op.meaning, Meaning.eq_truth_of_kind hc, Meaning.choose]
    split_ifs <;> assumption
  | bvnot | zeroExtend =>
    obtain _ | ⟨ha, _ | _⟩ := h
    obtain ⟨a, rfl⟩ := Meaning.exists_bits_of_kind ha
    rfl
  | extract _ _ =>
    obtain _ | ⟨ha, _ | _⟩ := h
    obtain ⟨a, rfl⟩ := Meaning.exists_bits_of_kind ha
    rfl
  | concat =>
    obtain _ | ⟨ha, _ | ⟨hb, _ | _⟩⟩ := h
    obtain ⟨a, rfl⟩ := Meaning.exists_bits_of_kind ha
    obtain ⟨b, rfl⟩ := Meaning.exists_bits_of_kind hb
    rfl
  | select =>
    obtain _ | ⟨ha, _ | ⟨hi, _ | _⟩⟩ := h
    obtain ⟨cells, rfl⟩ := Meaning.exists_array_of_kind ha
    obtain ⟨i, rfl⟩ := Meaning.exists_bits_of_kind hi
    rfl
  | store =>
    obtain _ | ⟨ha, _ | ⟨hi, _ | ⟨hv, _ | _⟩⟩⟩ := h
    obtain ⟨cells, rfl⟩ := Meaning.exists_array_of_kind ha
    obtain ⟨i, rfl⟩ := Meaning.exists_bits_of_kind hi
    obtain ⟨v, rfl⟩ := Meaning.exists_bits_of_kind hv
    rfl

mutual

/-- The value of a well sorted term has the sort of the term. -/
theorem Interpretation.kind_denote {I : Interpretation} {sig : Signature} (fits : I.Fits sig) :
    (t : Term) → (k : Kind) → t.HasKind sig k → (I.denote t).kind = k
  | .symbol x, k, h => fits x.name k h
  | .binary _, _, h => h.symm
  | .hex _, _, h => h.symm
  | .bool _, _, h => h.symm
  | .app _ _ args, _, ⟨ks, hks, rank⟩ =>
      Op.kind_meaning rank (Interpretation.haveKinds_denoteAll fits args ks hks)

theorem Interpretation.haveKinds_denoteAll {I : Interpretation} {sig : Signature}
    (fits : I.Fits sig) : (ts : List Term) → (ks : List Kind) → Term.HaveKinds sig ts ks →
      Meaning.HaveKinds (I.denoteAll ts) ks
  | [], _, h => h ▸ .nil
  | t :: rest, _, ⟨k, ks, h, hk, hks⟩ =>
      h ▸ .cons (Interpretation.kind_denote fits t k hk)
        (Interpretation.haveKinds_denoteAll fits rest ks hks)

end

/-! ## Truth of assertions -/

namespace Interpretation

variable (I : Interpretation) {indices : List Numeral}

open Classical in
theorem denote_eq {a b : Term} :
    I.denote (.app .eq indices [a, b]) = .truth (decide (I.denote a = I.denote b)) := by
  change Meaning.truth (decide ([I.denote a, I.denote b].IsChain (· = ·))) = _
  simp

theorem holds_eq {a b : Term} : I.Holds (.app .eq indices [a, b]) ↔ I.denote a = I.denote b := by
  simp [Holds, denote_eq]

theorem holds_iff_isTrue {t : Term} : I.Holds t ↔ (I.denote t).isTrue = true := by
  unfold Holds
  cases I.denote t <;> simp [Meaning.isTrue]

theorem holds_and {args : List Term} :
    I.Holds (.app .and indices args) ↔ ∀ t ∈ args, I.Holds t := by
  simp only [holds_iff_isTrue]
  change (I.denoteAll args).all Meaning.isTrue = true ↔ _
  induction args with
  | nil => exact iff_of_true rfl (by simp)
  | cons t rest ih =>
    change ((I.denote t).isTrue && (I.denoteAll rest).all Meaning.isTrue) = true ↔ _
    rw [Bool.and_eq_true, List.forall_mem_cons, ih]

theorem holds_implies {a c : Term} :
    I.Holds (.app .implies indices [a, c]) ↔ (I.Holds a → I.Holds c) := by
  simp only [holds_iff_isTrue]
  change (!(I.denote a).isTrue || (I.denote c).isTrue) = true ↔ _
  cases (I.denote a).isTrue <;> simp

theorem holds_not {t : Term} : I.Holds (.app .not indices [t]) ↔ ¬ I.Holds t := by
  simp only [holds_iff_isTrue]
  change (!(I.denote t).isTrue) = true ↔ _
  simp

end Interpretation

end CycleCheck
