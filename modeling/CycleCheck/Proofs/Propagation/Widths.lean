import CycleCheck.Proofs.Propagation.Narrow
import CycleCheck.Proofs.Propagation.Points

/-!
Widths of values. At every point of a run over a well sorted formula, the value of a well sorted
term has the sort of the term, and a word has from 1 to 64 bits, as long as zero extensions stay
below the bound from which on widths wrap around. Beyond it evaluation computes another width
without noticing.
-/

namespace CycleCheck

/-- No width of a sort is zero. -/
def Kind.Positive : Kind → Prop
  | .truth => True
  | .bits w => 0 < w
  | .array a d => 0 < a ∧ 0 < d

/-- No constant in a term is without digits. -/
def Term.HasDigits (t : Term) : Prop :=
  ∀ digits, (Term.binary digits).Within t ∨ (Term.hex digits).Within t → digits ≠ ""

/-- All declared widths are positive. -/
def Signature.Positive (sig : Signature) : Prop := ∀ x k, (x, k) ∈ sig → k.Positive

variable {sig : Signature}

theorem Rank.positive {op : Op} {indices : List Numeral} {ks : List Kind} {k : Kind}
    (h : Rank op indices ks k) (args : ∀ k' ∈ ks, k'.Positive) : k.Positive := by
  cases h with
  | connective | not | implies | equality | comparison => trivial
  | ite => exact args _ (by simp)
  | word | bvnot => exact args _ (by simp)
  | concat =>
    have hleft := args (.bits _) (List.mem_cons_self)
    exact Nat.add_pos_left hleft _
  | extract => exact Nat.succ_pos _
  | zeroExtend =>
    have harg := args (.bits _) (List.mem_cons_self)
    exact Nat.add_pos_left harg _
  | select =>
    have harray := args (.array _ _) (List.mem_cons_self)
    exact harray.2
  | store => exact args _ (by simp)

theorem Term.HasDigits.of_mem {t : Term} {op : Op} {indices : List Numeral} {args : List Term}
    (h : (Term.app op indices args).HasDigits) (ht : t ∈ args) : t.HasDigits := by
  rintro digits (hwithin | hwithin)
  · exact h digits (.inl (.arg ht hwithin))
  · exact h digits (.inr (.arg ht hwithin))

theorem length_pos_of_ne_empty {s : String} (h : s ≠ "") : 0 < s.length :=
  Nat.pos_of_ne_zero fun hlength => h (String.length_eq_zero_iff.1 hlength)

mutual

/-- The sort of a term has positive widths. -/
theorem Term.HasKind.positive (hsig : sig.Positive) :
    (t : Term) → (k : Kind) → t.HasKind sig k → t.HasDigits → k.Positive
  | .symbol x, k, h, _ => hsig x.name k h
  | .binary digits, _, h, hd => by
    have hpos := length_pos_of_ne_empty (hd digits (.inl (.self _)))
    rw [h]
    exact hpos
  | .hex digits, _, h, hd => by
    have hpos := length_pos_of_ne_empty (hd digits (.inr (.self _)))
    rw [h]
    exact Nat.mul_pos hpos (by decide)
  | .bool _, _, h, _ => by
    rw [h]
    trivial
  | .app _ _ args, _, ⟨ks, hks, rank⟩, hd =>
    rank.positive (Term.HaveKinds.positive hsig args ks hks fun _ ht => hd.of_mem ht)

theorem Term.HaveKinds.positive (hsig : sig.Positive) :
    (ts : List Term) → (ks : List Kind) → Term.HaveKinds sig ts ks → (∀ t ∈ ts, t.HasDigits) →
      ∀ k ∈ ks, k.Positive
  | [], _, h, _ => by
    rw [show _ = [] from h]
    simp
  | t :: rest, _, ⟨k, ks, h, hk, hks⟩, hd => by
    rw [h, List.forall_mem_cons]
    exact ⟨Term.HasKind.positive hsig t k hk (hd t List.mem_cons_self),
      Term.HaveKinds.positive hsig rest ks hks fun u hu => hd u (List.mem_cons_of_mem t hu)⟩

end

namespace Propagation

/-- A value is unknown or it is one of a sort: a word has exactly the width of the sort, which is
from 1 to 64, and fits it. -/
def Value.OfSort (sig : Signature) : Value → Kind → Prop
  | .unknown, _ => True
  | .bool _, k => k = .truth
  | .bits v w, k => ∃ n : Nat, k = .bits n ∧ w.toInt = n ∧ 1 ≤ n ∧ n ≤ 64 ∧ v.toNat < 2 ^ n
  | .array m, k => ∃ a d, k = .array a d ∧ m.Fits sig a d

variable {f : Formula} {s : State} {t : Term} {k : Kind} {v : Value}

theorem Value.HasKind.ofSort (h : v.HasKind sig k) (hk : k.Positive) : v.OfSort sig k := by
  cases v with
  | unknown => trivial
  | bool => exact h
  | bits x w =>
    obtain ⟨n, rfl, rfl, hle, hlt⟩ := h
    exact ⟨n, rfl, Int64.toInt_ofNat_of_lt (by omega), hk, hle, hlt⟩
  | array => exact h

/-- Definitions by well sorted equalities keep states well sorted. -/
theorem kept_wellKinded {bound : Nat} (le : bound ≤ wrapBound) :
    Kept (AssertableBelow bound sig) (·.WellKinded sig) where
  conjunct _ _ h := h.of_and
  consequent _ _ _ h := h.of_implies.2
  define s _ a b d wk h hd := by
    obtain ⟨k, ha, hb, hza, hzb⟩ := h.of_eq
    exact State.define_wellKinded le hd wk ha hb hza hzb

/-- All points of a run over a well sorted formula are well sorted. -/
theorem wellKinded_of_mem_points (sorted : f.WellSorted) (short : f.ExtensionsBelow wrapBound)
    (hs : s ∈ points f) : s.WellKinded f.signature :=
  (kept_wellKinded le_rfl).forall_points (fun _ h => (declareAll_spec sorted.unique h).1)
    (fun t ht => ⟨sorted.asserted t ht, short t ht⟩) s hs

/-- At every point of a run over a well sorted formula, a well sorted term has a value of its sort,
if no zero extension makes widths wrap around. -/
theorem ofSort_of_mem_points (sorted : f.WellSorted) (short : f.ExtensionsBelow wrapBound)
    (positive : Signature.Positive f.signature) (hs : s ∈ points f)
    (ht : t.HasKind f.signature k) (hshort : t.ExtensionsBelow wrapBound) (digits : t.HasDigits)
    (hv : s.eval t = .ok v) : v.OfSort f.signature k := by
  have hkind := (State.eval_hasKind_and_evalAll (wellKinded_of_mem_points sorted short hs)
    le_rfl).1 t k v ht hshort hv
  exact hkind.ofSort (ht.positive positive t k digits)

/-- A byte that is defined. -/
def definedByte : Formula :=
  [.declareBits ⟨"x"⟩ ⟨8⟩, .assert (.app .eq [] [.symbol ⟨"x"⟩, .hex "2a"])]

theorem definedByte_sorted : definedByte.WellSorted ∧ definedByte.ExtensionsBelow wrapBound ∧
    Signature.Positive definedByte.signature := by
  have hx : ("x", Kind.bits 8) ∈ definedByte.signature := by decide
  refine ⟨⟨by decide, fun t ht => ?_⟩, fun t ht => ?_, fun x k hk => ?_⟩
  · obtain rfl : t = .app .eq [] [.symbol ⟨"x"⟩, .hex "2a"] := by simpa [definedByte] using ht
    exact ⟨[.bits 8, .bits 8], Term.haveKinds_pair.2 ⟨hx, rfl⟩,
      .equality (k := .bits 8) (by simp) (by simp)⟩
  · obtain rfl : t = .app .eq [] [.symbol ⟨"x"⟩, .hex "2a"] := by simpa [definedByte] using ht
    simp [Term.ExtensionsBelow, Term.AllExtensionsBelow]
  · obtain ⟨-, rfl⟩ : x = "x" ∧ k = .bits 8 := by
      simpa [definedByte, Formula.signature, Command.declared?] using hk
    exact (by decide : 0 < 8)

/-- After its definition the byte extended by a byte is a word of sixteen bits. -/
theorem ofSort_of_mem_points_byte : ∃ s ∈ points definedByte,
    s.eval (.app .zeroExtend [⟨8⟩] [.symbol ⟨"x"⟩]) = .ok (.bits 42 16) ∧
      (Value.bits 42 16).OfSort definedByte.signature (.bits 16) := by
  obtain ⟨hsorted, hshort, hpositive⟩ := definedByte_sorted
  have hconstant : constant 16 "2a" ("2a".length * 4) = .ok (.bits 42 8) := rfl
  have hwidth : indexInt ⟨8⟩ = 8 := rfl
  obtain ⟨m, hm, heval⟩ : ∃ m, solve definedByte = .ok (.sat m) ∧
      m.eval (.app .zeroExtend [⟨8⟩] [.symbol ⟨"x"⟩]) = .ok (.bits 42 16) := by
    simp [solve, definedByte, declareAll, State.declare, assertedTerms, passes_eq, pass,
      Progress.settle, Progress.equate, Progress.add, State.define, State.defineTerm,
      State.defineSymbol, State.add, State.eval, hconstant, hwidth, passes_nil, bind, Except.bind,
      pure, Except.pure, State.evalAll, State.symbol]
    rfl
  have hmem : m ∈ points definedByte := List.mem_of_getLast? (getLast?_points hm)
  have hkind :
      (Term.app .zeroExtend [⟨8⟩] [.symbol ⟨"x"⟩]).HasKind definedByte.signature (.bits 16) :=
    ⟨[.bits 8], ⟨_, _, rfl, (by decide : ("x", Kind.bits 8) ∈ definedByte.signature), rfl⟩,
      .zeroExtend (w := 8)⟩
  refine ⟨m, hmem, heval, ofSort_of_mem_points hsorted hshort hpositive hmem hkind ?_ ?_ heval⟩
  · simp [Term.ExtensionsBelow, Term.AllExtensionsBelow, wrapBound]
  · simp [Term.HasDigits, Term.within_app, Term.within_leaf]

/-- A byte extended by all but eight of the 2^64 bits that an index can count. -/
def overlong (digits : String) : Term := .app .zeroExtend [⟨18446744073709551608⟩] [.hex digits]

theorem zeroExtend_injective {n w : Nat} {a b : BitVec w}
    (h : (Meaning.bits w a).zeroExtend n = (Meaning.bits w b).zeroExtend n) : a = b := by
  have hcut := congrArg BitVec.toNat (eq_of_heq (Meaning.bits.inj h).2)
  rw [BitVec.toNat_setWidth_of_le (Nat.le_add_right w n),
    BitVec.toNat_setWidth_of_le (Nat.le_add_right w n)] at hcut
  exact BitVec.eq_of_toNat_eq hcut

/-- The assertion that two such words differ. -/
def apart : Formula := [.assert (.app .distinct [] [overlong "01", overlong "02"])]

/-- Beyond the bound the width wraps around to zero and passes the check against 64: the value of a
term of 2^64 bits is a word of none. So different words are taken for the same one, and a formula
that always holds is found to be unsatisfiable. -/
theorem overlong_wraps :
    Term.apply .zeroExtend [⟨18446744073709551608⟩] [some (.hex "01")] = .ok (overlong "01") ∧
      (overlong "01").HasKind apart.signature (.bits (2 ^ 64)) ∧ ({} : State) ∈ points apart ∧
      ({} : State).eval (overlong "01") = .ok (.bits 0 0) ∧
      ¬ (Value.bits 0 0).OfSort apart.signature (.bits (2 ^ 64)) ∧
      solve apart = .ok (.unsat (.app .distinct [] [overlong "01", overlong "02"])) ∧
      ∀ I : Interpretation, I.Satisfies apart := by
  refine ⟨rfl, ?kind, List.mem_cons_self, rfl, ?value, ?unsat, ?satisfied⟩
  case kind =>
    have hrank : Rank .zeroExtend [⟨18446744073709551608⟩] [.bits 8]
        (.bits (8 + 18446744073709551608)) := .zeroExtend
    exact ⟨[.bits 8], ⟨_, _, rfl, rfl, rfl⟩, hrank⟩
  case value =>
    rintro ⟨n, hn, hw, hpos, -⟩
    rw [show (0 : Int64).toInt = 0 from rfl] at hw
    omega
  case unsat =>
    change passes {} [.app .distinct [] [overlong "01", overlong "02"]] = _
    rw [passes_eq (by simp)]
    rfl
  case satisfied =>
    intro I t ht
    obtain rfl : t = .app .distinct [] [overlong "01", overlong "02"] := by simpa [apart] using ht
    have hdifferent : I.denote (overlong "01") ≠ I.denote (overlong "02") := by
      intro heq
      have hbytes : BitVec.ofNat 8 1 = BitVec.ofNat 8 2 :=
        zeroExtend_injective (n := 18446744073709551608) heq
      exact absurd hbytes (by decide)
    have hdenote : I.denote (.app .distinct [] [overlong "01", overlong "02"]) =
      Op.meaning .distinct [] [I.denote (overlong "01"), I.denote (overlong "02")] := rfl
    rw [Interpretation.Holds, hdenote, Op.meaning]
    simpa using hdifferent

end Propagation

end CycleCheck
