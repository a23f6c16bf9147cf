import CycleCheck.Proofs.Term.Build

/-!
Terms in a scope. A scope says which symbols may be used and at which sorts. The terms of
assertions are built from symbols in scope and from constants that fit their widths, and no word
in them is wider than 64 bits; a formula is sorted if each of its assertions is such a term in the
scope of the declarations before it.
-/

namespace CycleCheck

/-- The symbols that may be used, with their sorts. -/
abbrev Scope := String → Kind → Prop

mutual

/-- Every constant is the checked constant of some value at some width. -/
def Term.ConstantsFit : Term → Prop
  | .binary digits => ∃ v w, Term.bits v w = .ok (.binary digits)
  | .hex digits => ∃ v w, Term.bits v w = .ok (.hex digits)
  | .app _ _ args => Term.AllConstantsFit args
  | _ => True

def Term.AllConstantsFit : List Term → Prop
  | [] => True
  | t :: rest => Term.ConstantsFit t ∧ Term.AllConstantsFit rest

end

theorem Term.allConstantsFit_iff {ts : List Term} :
    Term.AllConstantsFit ts ↔ ∀ t ∈ ts, t.ConstantsFit := by
  induction ts with
  | nil => simp [Term.AllConstantsFit]
  | cons t rest ih => simp [Term.AllConstantsFit, ih]

/-- Terms that have a value as soon as the symbols in scope have values. -/
inductive Term.Evaluable (Γ : Scope) : Term → Kind → Prop where
  | symbol {x : Symbol} {k : Kind} (inScope : Γ x.name k) : Evaluable Γ (.symbol x) k
  | word {w n : Nat} (pos : 0 < w) (narrow : w ≤ 64) (fits : n < 2 ^ w) :
      Evaluable Γ (.word w n) (.bits w)
  | bit (b : Bool) : Evaluable Γ (.bit b) (.bits 1)
  | all {ts : List Term} (each : ∀ t ∈ ts, Evaluable Γ t .truth) : Evaluable Γ (.all ts) .truth
  | not {t : Term} (arg : Evaluable Γ t .truth) : Evaluable Γ (.not t) .truth
  | eq {a b : Term} {w : Nat} (left : Evaluable Γ a (.bits w)) (right : Evaluable Γ b (.bits w)) :
      Evaluable Γ (.eq a b) .truth
  | uge {a b : Term} {w : Nat} (left : Evaluable Γ a (.bits w)) (right : Evaluable Γ b (.bits w)) :
      Evaluable Γ (.uge a b) .truth
  | ite {c a b : Term} {k : Kind} (test : Evaluable Γ c .truth) (left : Evaluable Γ a k)
      (right : Evaluable Γ b k) : Evaluable Γ (.ite c a b) k
  | add {a b : Term} {w : Nat} (left : Evaluable Γ a (.bits w)) (right : Evaluable Γ b (.bits w)) :
      Evaluable Γ (.add a b) (.bits w)
  | sub {a b : Term} {w : Nat} (left : Evaluable Γ a (.bits w)) (right : Evaluable Γ b (.bits w)) :
      Evaluable Γ (.sub a b) (.bits w)
  | bitAnd {a b : Term} {w : Nat} (left : Evaluable Γ a (.bits w))
      (right : Evaluable Γ b (.bits w)) : Evaluable Γ (.bitAnd a b) (.bits w)
  | concat {a b : Term} {v w : Nat} (narrow : v + w ≤ 64) (left : Evaluable Γ a (.bits v))
      (right : Evaluable Γ b (.bits w)) : Evaluable Γ (.concat a b) (.bits (v + w))
  | extract {a : Term} {hi lo w : Nat} (ordered : lo ≤ hi) (inside : hi < w) (narrow : w ≤ 64)
      (arg : Evaluable Γ a (.bits w)) : Evaluable Γ (.extract hi lo a) (.bits (hi - lo + 1))
  | zeroExtend {a : Term} {n w : Nat} (narrow : w + n ≤ 64) (arg : Evaluable Γ a (.bits w)) :
      Evaluable Γ (.zeroExtend n a) (.bits (w + n))
  | select {a i : Term} {n d : Nat} (array : Evaluable Γ a (.array n d))
      (index : Evaluable Γ i (.bits n)) : Evaluable Γ (.select a i) (.bits d)
  | store {a i v : Term} {n d : Nat} (array : Evaluable Γ a (.array n d))
      (index : Evaluable Γ i (.bits n)) (value : Evaluable Γ v (.bits d)) :
      Evaluable Γ (.store a i v) (.array n d)

/-- The terms of assertions. -/
inductive Clause (Γ : Scope) : Term → Prop where
  | eq {a b : Term} {k : Kind} (left : a.Evaluable Γ k) (right : b.Evaluable Γ k) :
      Clause Γ (.eq a b)
  | all {ts : List Term} (each : ∀ t ∈ ts, Clause Γ t) : Clause Γ (.all ts)
  | implies {a c : Term} (antecedent : a.Evaluable Γ .truth) (consequent : Clause Γ c) :
      Clause Γ (.implies a c)
  | not {t : Term} (arg : t.Evaluable Γ .truth) : Clause Γ (.not t)

theorem Term.Evaluable.mono {Γ Δ : Scope} {t : Term} {k : Kind} (h : t.Evaluable Γ k)
    (sub : ∀ x k, Γ x k → Δ x k) : t.Evaluable Δ k := by
  induction h with
  | symbol inScope => exact .symbol (sub _ _ inScope)
  | word pos narrow fits => exact .word pos narrow fits
  | bit b => exact .bit b
  | all _ ih => exact .all ih
  | not _ ih => exact .not ih
  | eq _ _ iha ihb => exact .eq iha ihb
  | uge _ _ iha ihb => exact .uge iha ihb
  | ite _ _ _ ihc iha ihb => exact .ite ihc iha ihb
  | add _ _ iha ihb => exact .add iha ihb
  | sub _ _ iha ihb => exact .sub iha ihb
  | bitAnd _ _ iha ihb => exact .bitAnd iha ihb
  | concat narrow _ _ iha ihb => exact .concat narrow iha ihb
  | extract ordered inside narrow _ ih => exact .extract ordered inside narrow ih
  | zeroExtend narrow _ ih => exact .zeroExtend narrow ih
  | select _ _ iha ihi => exact .select iha ihi
  | store _ _ _ iha ihi ihv => exact .store iha ihi ihv

theorem Clause.mono {Γ Δ : Scope} {t : Term} (h : Clause Γ t) (sub : ∀ x k, Γ x k → Δ x k) :
    Clause Δ t := by
  induction h with
  | eq ha hb => exact .eq (ha.mono sub) (hb.mono sub)
  | all _ ih => exact .all ih
  | implies ha _ ih => exact .implies (ha.mono sub) ih
  | not ht => exact .not (ht.mono sub)

/-- A conjunction has the value that its members make. -/
theorem Term.denote_all_congr {ts : List Term} {I J : Interpretation}
    (h : ∀ t ∈ ts, I.denote t = J.denote t) : I.denote (.all ts) = J.denote (.all ts) := by
  match ts with
  | [] => rfl
  | [t] => exact h t List.mem_cons_self
  | a :: b :: rest =>
    refine congrArg (Op.meaning .and []) ?_
    generalize a :: b :: rest = us at h
    induction us with
    | nil => rfl
    | cons u us ih =>
      obtain ⟨hu, hus⟩ := List.forall_mem_cons.1 h
      exact congrArg₂ List.cons hu (ih hus)

/-- The value of a term is made of the values of the symbols in scope. -/
theorem Term.Evaluable.denote_congr {Γ : Scope} {t : Term} {k : Kind} (h : t.Evaluable Γ k)
    {I J : Interpretation} (same : ∀ x k, Γ x k → I x = J x) : I.denote t = J.denote t := by
  have happ : ∀ op indices (ts : List Term), I.denoteAll ts = J.denoteAll ts →
      I.denote (.app op indices ts) = J.denote (.app op indices ts) :=
    fun op indices ts hts => congrArg (Op.meaning op indices) hts
  have hone : ∀ {a : Term}, I.denote a = J.denote a → I.denoteAll [a] = J.denoteAll [a] :=
    fun ha => congrArg (· :: []) ha
  have htwo : ∀ {a b : Term}, I.denote a = J.denote a → I.denote b = J.denote b →
      I.denoteAll [a, b] = J.denoteAll [a, b] := fun ha hb => congrArg₂ List.cons ha (hone hb)
  have hthree : ∀ {a b c : Term}, I.denote a = J.denote a → I.denote b = J.denote b →
      I.denote c = J.denote c → I.denoteAll [a, b, c] = J.denoteAll [a, b, c] :=
    fun ha hb hc => congrArg₂ List.cons ha (htwo hb hc)
  induction h with
  | symbol inScope => exact same _ _ inScope
  | word => rw [I.denote_word, J.denote_word]
  | bit b => rw [I.denote_bit, J.denote_bit]
  | all _ ih => exact Term.denote_all_congr ih
  | not _ ih | extract _ _ _ _ ih | zeroExtend _ _ ih => exact happ _ _ _ (hone ih)
  | eq _ _ iha ihb | uge _ _ iha ihb | add _ _ iha ihb | sub _ _ iha ihb | bitAnd _ _ iha ihb
  | concat _ _ _ iha ihb | select _ _ iha ihb => exact happ _ _ _ (htwo iha ihb)
  | ite _ _ _ iha ihb ihc | store _ _ _ iha ihb ihc => exact happ _ _ _ (hthree iha ihb ihc)

theorem Clause.denote_congr {Γ : Scope} {t : Term} (h : Clause Γ t) {I J : Interpretation}
    (same : ∀ x k, Γ x k → I x = J x) : I.denote t = J.denote t := by
  have hpair : ∀ op {a b : Term}, I.denote a = J.denote a → I.denote b = J.denote b →
      I.denote (.app op [] [a, b]) = J.denote (.app op [] [a, b]) := fun op a b ha hb =>
    congrArg (Op.meaning op []) (congrArg₂ List.cons ha (congrArg (· :: []) hb))
  induction h with
  | eq ha hb => exact hpair .eq (ha.denote_congr same) (hb.denote_congr same)
  | all _ ih => exact Term.denote_all_congr ih
  | implies ha _ ih => exact hpair .implies (ha.denote_congr same) ih
  | not ht =>
    exact congrArg (Op.meaning .not []) (congrArg (· :: []) (ht.denote_congr same))

/-- The parts of a selection. -/
theorem Term.Evaluable.of_select {Γ : Scope} {indices : List Numeral} {a i : Term}
    {k : Kind} (h : (Term.app .select indices [a, i]).Evaluable Γ k) :
    ∃ n d, a.Evaluable Γ (.array n d) ∧ i.Evaluable Γ (.bits n) ∧ k = .bits d := by
  generalize ht : Term.app .select indices [a, i] = t at h
  induction h with
  | select ha hi =>
    cases ht
    exact ⟨_, _, ha, hi, rfl⟩
  | word =>
    unfold Term.word at ht
    split_ifs at ht
  | @all ts _ ih =>
    match ts with
    | [] => cases ht
    | [t] => exact ih t List.mem_cons_self ht
    | _ :: _ :: _ => cases ht
  | _ => cases ht

/-! ## Sorts -/

/-- A term is well sorted, extends no word by more than 64 bits, and its constants fit. -/
structure Term.Proper (sig : Signature) (t : Term) (k : Kind) : Prop where
  kind : t.HasKind sig k
  short : ∀ bound > 64, t.ExtensionsBelow bound
  constants : t.ConstantsFit

theorem Term.bits_eq_word {w n : Nat} (pos : 0 < w) (narrow : w ≤ 64) (fits : n < 2 ^ w) :
    Term.bits n.toUInt64 w = .ok (.word w n) := by
  have hsmall : n < 2 ^ 64 := Nat.lt_of_lt_of_le fits (Nat.pow_le_pow_right (by decide) narrow)
  have hnat : n.toUInt64.toNat = n := by simpa using hsmall
  have hshift : n >>> w = 0 := by rw [Nat.shiftRight_eq_div_pow, Nat.div_eq_of_lt fits]
  simp [Term.bits, hnat, hshift]
  omega

namespace Term.Proper

variable {sig : Signature}

theorem word {w n : Nat} (pos : 0 < w) (narrow : w ≤ 64) (fits : n < 2 ^ w) :
    (Term.word w n).Proper sig (.bits w) := by
  have hbits := bits_eq_word pos narrow fits
  unfold Term.word at hbits ⊢
  split_ifs at hbits ⊢ with hw
  · refine ⟨?_, fun _ _ => trivial, _, _, hbits⟩
    change Kind.bits w = .bits _
    rw [Text.length_fixedWidth]
    congr
    omega
  · refine ⟨?_, fun _ _ => trivial, _, _, hbits⟩
    change Kind.bits w = .bits _
    rw [Text.length_fixedWidth]

theorem bit (b : Bool) : (Term.bit b).Proper sig (.bits 1) := by
  cases b with
  | false => exact ⟨rfl, fun _ _ => trivial, 0, 1, rfl⟩
  | true => exact ⟨rfl, fun _ _ => trivial, 1, 1, rfl⟩

theorem app₁ {op : Op} {indices : List Numeral} {t : Term} {j k : Kind} (h : t.Proper sig j)
    (rank : Rank op indices [j] k)
    (short : op = .zeroExtend → ∀ n ∈ indices, n.value.toNat ≤ 64) :
    (Term.app op indices [t]).Proper sig k where
  kind := ⟨[j], ⟨j, [], rfl, h.kind, rfl⟩, rank⟩
  short bound hb := ⟨fun hop n hn => Nat.lt_of_le_of_lt (short hop n hn) hb, h.short bound hb,
    trivial⟩
  constants := ⟨h.constants, trivial⟩

theorem app₂ {op : Op} {a b : Term} {i j k : Kind} (ha : a.Proper sig i) (hb : b.Proper sig j)
    (rank : Rank op [] [i, j] k) : (Term.app op [] [a, b]).Proper sig k where
  kind := ⟨[i, j], haveKinds_pair.2 ⟨ha.kind, hb.kind⟩, rank⟩
  short bound hbound := ⟨by simp, ha.short bound hbound, hb.short bound hbound, trivial⟩
  constants := ⟨ha.constants, hb.constants, trivial⟩

theorem app₃ {op : Op} {a b c : Term} {i j l k : Kind} (ha : a.Proper sig i) (hb : b.Proper sig j)
    (hc : c.Proper sig l) (rank : Rank op [] [i, j, l] k) :
    (Term.app op [] [a, b, c]).Proper sig k where
  kind := ⟨[i, j, l], haveKinds_triple.2 ⟨ha.kind, hb.kind, hc.kind⟩, rank⟩
  short bound hbound :=
    ⟨by simp, ha.short bound hbound, hb.short bound hbound, hc.short bound hbound, trivial⟩
  constants := ⟨ha.constants, hb.constants, hc.constants, trivial⟩

theorem haveKinds {ts : List Term} {k : Kind} (h : ∀ t ∈ ts, t.Proper sig k) :
    Term.HaveKinds sig ts (ts.map fun _ => k) := by
  induction ts with
  | nil => rfl
  | cons t rest ih =>
    obtain ⟨ht, hrest⟩ := List.forall_mem_cons.1 h
    exact ⟨k, rest.map fun _ => k, rfl, ht.kind, ih hrest⟩

theorem all {ts : List Term} (h : ∀ t ∈ ts, t.Proper sig .truth) :
    (Term.all ts).Proper sig .truth := by
  match ts with
  | [] => exact ⟨rfl, fun _ _ => trivial, trivial⟩
  | [t] => exact h t List.mem_cons_self
  | t :: u :: rest =>
    refine ⟨⟨_, haveKinds h, .connective (by simp) (by simp)⟩, fun bound hb => ⟨by simp, ?_⟩, ?_⟩
    · exact Term.allExtensionsBelow_iff.2 fun s hs => (h s hs).short bound hb
    · exact Term.allConstantsFit_iff.2 fun s hs => (h s hs).constants

theorem eq {a b : Term} {k : Kind} (ha : a.Proper sig k) (hb : b.Proper sig k) :
    (Term.eq a b).Proper sig .truth :=
  ha.app₂ hb (.equality (k := k) (by simp) (by simp))

theorem not {t : Term} (h : t.Proper sig .truth) : (Term.not t).Proper sig .truth :=
  h.app₁ .not (by simp)

end Term.Proper

theorem Term.Evaluable.proper {Γ : Scope} {sig : Signature} {t : Term} {k : Kind}
    (h : t.Evaluable Γ k) (declared : ∀ x k, Γ x k → (x, k) ∈ sig) : t.Proper sig k := by
  have hindex : ∀ {n : Nat}, n ≤ 64 → n.toUInt64.toNat = n := by
    intro n hn
    simpa using Nat.lt_of_le_of_lt hn (by decide : 64 < 2 ^ 64)
  induction h with
  | symbol inScope => exact ⟨declared _ _ inScope, fun _ _ => trivial, trivial⟩
  | word pos narrow fits => exact .word pos narrow fits
  | bit b => exact .bit b
  | all _ ih => exact .all ih
  | not _ ih => exact ih.not
  | eq _ _ iha ihb => exact iha.eq ihb
  | uge _ _ iha ihb => exact iha.app₂ ihb (.comparison (by simp))
  | ite _ _ _ ihc iha ihb => exact ihc.app₃ iha ihb .ite
  | add _ _ iha ihb | sub _ _ iha ihb | bitAnd _ _ iha ihb =>
    exact iha.app₂ ihb (.word (by simp))
  | concat _ _ _ iha ihb => exact iha.app₂ ihb .concat
  | @extract a hi lo w ordered inside narrow _ ih =>
    have hhi := hindex (show hi ≤ 64 by omega)
    have hlo := hindex (show lo ≤ 64 by omega)
    have rank : Rank .extract [⟨hi.toUInt64⟩, ⟨lo.toUInt64⟩] [.bits w]
        (.bits (hi.toUInt64.toNat - lo.toUInt64.toNat + 1)) :=
      .extract (by rwa [hhi, hlo]) (by rwa [hhi])
    rw [hhi, hlo] at rank
    exact ih.app₁ rank (by simp)
  | @zeroExtend a n w narrow _ ih =>
    have hn := hindex (show n ≤ 64 by omega)
    have rank : Rank .zeroExtend [⟨n.toUInt64⟩] [.bits w] (.bits (w + n.toUInt64.toNat)) :=
      .zeroExtend
    rw [hn] at rank
    refine ih.app₁ rank fun _ m hm => ?_
    rw [List.mem_singleton.1 hm, hn]
    omega
  | select _ _ iha ihi => exact iha.app₂ ihi .select
  | store _ _ _ iha ihi ihv => exact iha.app₃ ihi ihv .store

theorem Clause.proper {Γ : Scope} {sig : Signature} {t : Term} (h : Clause Γ t)
    (declared : ∀ x k, Γ x k → (x, k) ∈ sig) : t.Proper sig .truth := by
  induction h with
  | eq ha hb => exact (ha.proper declared).eq (hb.proper declared)
  | all _ ih => exact .all ih
  | implies ha _ ih => exact (ha.proper declared).app₂ ih .implies
  | not ht => exact (ht.proper declared).not

/-! ## Formulas -/

/-- The scope with what a command declares. -/
def Scope.declare (Γ : Scope) (c : Command) : Scope := fun x k => Γ x k ∨ c.declared? = some (x, k)

/-- Every assertion is a clause in the scope of the declarations before it. -/
def Formula.Sorted (Γ : Scope) : Formula → Prop
  | [] => True
  | c :: rest => (∀ t, c = .assert t → Clause Γ t) ∧ Formula.Sorted (Γ.declare c) rest

namespace Formula

variable {Γ Δ : Scope} {f g : Formula}

theorem Sorted.mono (h : f.Sorted Γ) (sub : ∀ x k, Γ x k → Δ x k) : f.Sorted Δ := by
  induction f generalizing Γ Δ with
  | nil => trivial
  | cons c rest ih =>
    refine ⟨fun t ht => (h.1 t ht).mono sub, ih h.2 fun x k hx => ?_⟩
    exact hx.imp_left (sub x k)

theorem sorted_append : (f ++ g).Sorted Γ ↔
    f.Sorted Γ ∧ g.Sorted (fun x k => Γ x k ∨ (x, k) ∈ f.signature) := by
  induction f generalizing Γ with
  | nil => simp [Sorted, signature]
  | cons c rest ih =>
    rw [List.cons_append, Sorted, Sorted, ih, and_assoc]
    refine and_congr_right fun _ => and_congr_right fun _ => iff_of_eq (congrArg (g.Sorted ·) ?_)
    funext x k
    simp only [Scope.declare, signature, List.filterMap_cons]
    cases c.declared? <;> simp [or_assoc, eq_comm]

/-- The clause of an assertion in the scope of what stands before it. -/
theorem Sorted.clause {t : Term} {before rest : Formula}
    (h : Formula.Sorted Γ (before ++ .assert t :: rest)) :
    Clause (fun x k => Γ x k ∨ (x, k) ∈ before.signature) t :=
  (sorted_append.1 h).2.1 t rfl

/-- Whether a formula is satisfied rests on the symbols that may be used and those it declares. -/
theorem Sorted.satisfies_congr (h : f.Sorted Γ) {I J : Interpretation}
    (same : ∀ x k, Γ x k ∨ (x, k) ∈ f.signature → I x = J x) : I.Satisfies f ↔ J.Satisfies f := by
  refine forall₂_congr fun t ht => ?_
  obtain ⟨before, rest, rfl⟩ := List.append_of_mem ht
  have hvalue := h.clause.denote_congr fun x k hx => same x k <| hx.imp_right fun hmem => by
    rw [signature, List.filterMap_append]
    exact List.mem_append_left _ hmem
  rw [Interpretation.Holds, Interpretation.Holds, hvalue]

/-- Clauses may be asserted in any order. -/
theorem sorted_of_clauses (h : ∀ t, Command.assert t ∈ f → Clause Γ t) : f.Sorted Γ := by
  induction f generalizing Γ with
  | nil => trivial
  | cons c rest ih =>
    refine ⟨fun t ht => h t (ht ▸ List.mem_cons_self), ih fun t ht => ?_⟩
    exact (h t (List.mem_cons_of_mem c ht)).mono fun x k hx => .inl hx

/-- Declarations before clauses over what is declared. -/
theorem sorted_declared (hf : ∀ t, Command.assert t ∉ f)
    (h : ∀ t, Command.assert t ∈ g → Clause (fun x k => Γ x k ∨ (x, k) ∈ f.signature) t) :
    (f ++ g).Sorted Γ :=
  sorted_append.2 ⟨sorted_of_clauses fun t ht => absurd ht (hf t), sorted_of_clauses h⟩

theorem sorted_note {text : String} (h : f.Sorted Γ) : Formula.Sorted Γ (.note text :: f) :=
  ⟨fun t ht => (by cases ht), h.mono fun _ _ hx => .inl hx⟩

theorem sorted_flatten {fs : List Formula} (h : ∀ f ∈ fs, f.Sorted Γ) :
    Formula.Sorted Γ fs.flatten := by
  induction fs generalizing Γ with
  | nil => trivial
  | cons f rest ih =>
    obtain ⟨hf, hrest⟩ := List.forall_mem_cons.1 h
    rw [List.flatten_cons, sorted_append]
    exact ⟨hf, ih fun g hg => (hrest g hg).mono fun x k hx => .inl hx⟩

/-! ### Signatures -/

@[simp] theorem signature_nil : Formula.signature [] = [] := rfl

@[simp] theorem signature_append : (f ++ g).signature = f.signature ++ g.signature :=
  List.filterMap_append

@[simp] theorem signature_assert {t : Term} :
    Formula.signature (.assert t :: f) = f.signature := rfl

@[simp] theorem signature_note {text : String} :
    Formula.signature (.note text :: f) = f.signature := rfl

@[simp] theorem signature_declareBits {x : Symbol} {w : Numeral} :
    Formula.signature (.declareBits x w :: f) = (x.name, .bits w.value.toNat) :: f.signature := rfl

@[simp] theorem signature_declareArray {x : Symbol} {a d : Numeral} :
    Formula.signature (.declareArray x a d :: f) =
      (x.name, .array a.value.toNat d.value.toNat) :: f.signature := rfl

theorem signature_flatten (fs : List Formula) :
    Formula.signature fs.flatten = fs.flatMap Formula.signature := by
  induction fs with
  | nil => rfl
  | cons f rest ih => rw [List.flatten_cons, signature_append, ih, List.flatMap_cons]

/-- Assertions declare nothing. -/
theorem signature_of_asserts (h : ∀ c ∈ f, ∃ t, c = Command.assert t) : f.signature = [] := by
  refine List.filterMap_eq_nil_iff.2 fun c hc => ?_
  obtain ⟨t, rfl⟩ := h c hc
  rfl

end Formula

/-- Every symbol is declared once, every assertion is a boolean term that is well sorted by the
declarations before it, and every constant fits its width. -/
structure Formula.WellFormed (f : Formula) : Prop where
  unique : (f.signature.map Prod.fst).Nodup
  asserted : ∀ (before rest : Formula) (t : Term), f = before ++ .assert t :: rest →
    t.HasKind before.signature .truth
  constants : ∀ t, Command.assert t ∈ f → t.ConstantsFit

theorem Formula.Sorted.wellFormed {f : Formula} (h : f.Sorted fun _ _ => False)
    (unique : (f.signature.map Prod.fst).Nodup) : f.WellFormed where
  unique := unique
  asserted before rest t hf := by
    subst hf
    exact (h.clause.proper fun x k hx => hx.resolve_left id).kind
  constants t ht := by
    obtain ⟨before, rest, rfl⟩ := List.append_of_mem ht
    exact (h.clause.proper fun x k hx => hx.resolve_left id).constants

end CycleCheck
