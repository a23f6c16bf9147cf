import CycleCheck.Proofs.Propagation.Persistence
import CycleCheck.Proofs.Propagation.Widths

/-!
What is known at one point of a run is known at all later ones. A definition is fresh, so values,
memories and cells are only ever added, also where symbols share a memory or memories are built on
one another. A term with a known value keeps it, unless an operator in it puts a word of more than
64 bits together: that is refused as soon as all its arguments are known, which may be later.
-/

namespace CycleCheck.Propagation

variable {sig : Signature} {s s' : State} {f : Formula} {t : Term} {k : Kind} {v : Value}

/-! ## Refusals -/

/-- A term in which an operator puts a word of more than 64 bits together. -/
def Overwide (sig : Signature) (t : Term) (what : String) : Prop :=
  ∃ op indices args w, (Term.app op indices args).Within t ∧
    (Term.app op indices args).HasKind sig (.bits w) ∧ 64 < w ∧ op.Refuses what

theorem Overwide.of_mem {op : Op} {indices : List Numeral} {args : List Term} {what : String}
    (ht : t ∈ args) (h : Overwide sig t what) : Overwide sig (.app op indices args) what := by
  obtain ⟨op', indices', args', w, within, hkind, hwide, refuses⟩ := h
  exact ⟨op', indices', args', w, .arg ht within, hkind, hwide, refuses⟩

/-- A term is refused for a word that is too wide. -/
def State.RefusesWide (s : State) (sig : Signature) (t : Term) : Prop :=
  ∃ what, s.eval t = .error (.unsupported what) ∧ Overwide sig t what

theorem State.RefusesWide.app {op : Op} {indices : List Numeral} {args : List Term}
    (h : s.RefusesWide sig t) (ht : t ∈ args)
    (fails : ∀ e, s.eval t = .error e → s.eval (.app op indices args) = .error e) :
    s.RefusesWide sig (.app op indices args) := by
  obtain ⟨what, he, wide⟩ := h
  exact ⟨what, fails _ he, wide.of_mem ht⟩

/-- A term has a value, or it is refused for a word that is too wide. -/
def State.Handles (s : State) (sig : Signature) (t : Term) : Prop :=
  (∃ v, s.eval t = .ok v) ∨ s.RefusesWide sig t

/-- Terms have values, or one of them is refused for a word that is too wide. -/
def State.HandlesAll (s : State) (sig : Signature) (ts : List Term) : Prop :=
  (∃ vs, s.evalAll ts = .ok vs) ∨
    ∃ what, s.evalAll ts = .error (.unsupported what) ∧ ∃ t ∈ ts, Overwide sig t what

theorem State.HandlesAll.cons {ts : List Term} (ht : s.Handles sig t) (hts : s.HandlesAll sig ts) :
    s.HandlesAll sig (t :: ts) := by
  rw [State.HandlesAll, State.evalAll]
  rcases ht with ⟨v, hv⟩ | ⟨what, he, wide⟩
  · rcases hts with ⟨vs, hvs⟩ | ⟨what, he, u, hu, wide⟩
    · exact .inl ⟨v :: vs, by rw [hv, hvs]; rfl⟩
    · exact .inr ⟨what, by rw [hv, he]; rfl, u, List.mem_cons_of_mem t hu, wide⟩
  · exact .inr ⟨what, by rw [he]; rfl, t, List.mem_cons_self, wide⟩

section

variable {indices : List Numeral} {a b c : Term}

/-- It is enough for an implication that its consequent can be looked at where it has to be. -/
theorem State.Handles.implies (ha : s.Handles sig a)
    (hc : ∀ va, s.eval a = .ok va → ¬(va.known = true ∧ va.truth = false) → s.Handles sig c) :
    s.Handles sig (.app .implies indices [a, c]) := by
  rcases ha with ⟨va, hva⟩ | refused
  · have heval := State.eval_implies_of_ok hva indices c
    by_cases hfalse : va.known = true ∧ va.truth = false
    · exact .inl ⟨.bool true, by rw [heval, if_pos hfalse]⟩
    · rw [if_neg hfalse] at heval
      rcases hc va hva hfalse with ⟨vc, hvc⟩ | refused
      · exact .inl ⟨implication va vc, by rw [heval, hvc]; rfl⟩
      · exact .inr (refused.app (by simp) fun e he => by rw [heval, he]; rfl)
  · exact .inr (refused.app (by simp) fun e he => State.eval_implies_of_error he)

/-- It is enough for a choice that its branches can be looked at where they have to be. -/
theorem State.Handles.ite (hc : s.Handles sig c)
    (hknown : ∀ vc, s.eval c = .ok vc → vc.known = true →
      s.Handles sig (if vc.truth then a else b))
    (hunknown : ∀ vc, s.eval c = .ok vc → vc.known = false →
      s.Handles sig a ∧ s.Handles sig b) :
    s.Handles sig (.app .ite indices [c, a, b]) := by
  rcases hc with ⟨vc, hvc⟩ | refused
  · cases hk : vc.known with
    | true =>
      have heval : s.eval (.app .ite indices [c, a, b]) = s.eval (if vc.truth then a else b) :=
        State.eval_ite_of_known hvc hk
      have hmem : (if vc.truth then a else b) ∈ [c, a, b] := by split_ifs <;> simp
      rcases hknown vc hvc hk with ⟨v, hv⟩ | refused
      · exact .inl ⟨v, heval.trans hv⟩
      · exact .inr (refused.app hmem fun e he => heval.trans he)
    | false =>
      have heval := State.eval_ite_of_unknown hvc hk indices a b
      obtain ⟨⟨va, hva⟩ | refused, hb⟩ := hunknown vc hvc hk
      · rcases hb with ⟨vb, hvb⟩ | refused
        · exact .inl ⟨choice va vb, by rw [heval, hva, hvb]; rfl⟩
        · exact .inr (refused.app (by simp) fun e he => by rw [heval, hva, he]; rfl)
      · exact .inr (refused.app (by simp) fun e he => by rw [heval, he]; rfl)
  · exact .inr (refused.app (by simp) fun e he => State.eval_ite_of_error he)

/-- An operator that needs values only is refused if an argument is, or if it puts a word together
that is too wide. -/
theorem State.HandlesAll.app {op : Op} {args : List Term} {ks : List Kind}
    (hargs : s.HandlesAll sig args) (wk : s.WellKinded sig) (hks : Term.HaveKinds sig args ks)
    (rank : Rank op indices ks k) (plain : op ∉ [Op.implies, .ite])
    (heval : s.eval (.app op indices args) = s.evalAll args >>= s.applyOp op indices) :
    s.Handles sig (.app op indices args) := by
  rcases hargs with ⟨vals, hvals⟩ | ⟨what, he, t, ht, wide⟩
  · rw [hvals] at heval
    have hwidths := (State.eval_hasWidth_and_evalAll wk).2 args ks vals hks hvals
    rcases State.applyOp_outcome (s := s) rank plain hwidths
      with ⟨v, hv⟩ | ⟨what, w, he, refuses, rfl, hw⟩
    · exact .inl ⟨v, heval.trans hv⟩
    · exact .inr ⟨what, heval.trans he, op, indices, args, w, .self _, ⟨ks, hks, rank⟩, hw, refuses⟩
  · rw [he] at heval
    exact .inr ⟨what, heval, wide.of_mem ht⟩

end

/-- A term that has a value has one in every later state too, or is refused there as too wide. -/
theorem State.handles_later_and_evalAll (h : s.KeptBy s') (wk : s.WellKinded sig)
    (wk' : s'.WellKinded sig) :
    (∀ t : Term, ∀ k v, t.HasKind sig k → s.eval t = .ok v → s'.Handles sig t) ∧
    ∀ ts : List Term, ∀ ks vs, Term.HaveKinds sig ts ks → s.evalAll ts = .ok vs →
      s'.HandlesAll sig ts := by
  have kept := State.eval_keptBy_and_evalAll h wk wk'
  refine State.eval.mutual_induct
    (fun t => ∀ k v, t.HasKind sig k → s.eval t = .ok v → s'.Handles sig t)
    (fun ts => ∀ ks vs, Term.HaveKinds sig ts ks → s.evalAll ts = .ok vs → s'.HandlesAll sig ts)
    ?bool ?binary ?hex ?symbol ?numeral ?implies ?ite ?app ?nil ?cons
  case bool | binary | hex =>
    intro _ k v _ hv
    rw [State.eval] at hv
    exact .inl ⟨v, by rw [State.eval, hv]⟩
  case symbol =>
    intro x k v hk _
    exact .inl (State.exists_symbol wk' hk)
  case numeral =>
    intro n k v hk
    cases hk
  case implies =>
    intro indices a c iha ihc k v hk hv
    obtain ⟨ks, hks, rank⟩ := hk
    obtain ⟨rfl, -⟩ := rank.of_implies
    obtain ⟨hka, hkc⟩ := Term.haveKinds_pair.1 hks
    obtain ⟨va, hva, hv⟩ := State.eval_implies hv
    refine (iha .truth va hka hva).implies fun va' hva' hopen => ?_
    -- an antecedent that is not known to be false was not known to be false before
    obtain ⟨hfalse, -⟩ | ⟨-, vc, hvc, -⟩ := hv
    · have ha := kept.1 a .truth va va' hka hva hva' hfalse.1
      exact absurd (ha ▸ hfalse) hopen
    · exact ihc .truth vc hkc hvc
  case ite =>
    intro indices c a b ihc iha ihb k v hk hv
    obtain ⟨ks, hks, rank⟩ := hk
    cases rank.of_ite
    obtain ⟨hkc, hka, hkb⟩ := Term.haveKinds_triple.1 hks
    obtain ⟨vc, hvc, hv⟩ := State.eval_ite hv
    refine (ihc .truth vc hkc hvc).ite (fun vc' hvc' hknown => ?known)
      fun vc' hvc' hunknown => ?unknown
    case known =>
      -- the branch that is taken was looked at before
      obtain ⟨hknown', hv⟩ | ⟨-, va, vb, hva, hvb, -⟩ := hv
      · obtain rfl := kept.1 c .truth vc vc' hkc hvc hvc' hknown'
        split_ifs at hv ⊢
        · exact iha k v hka hv
        · exact ihb k v hkb hv
      · split_ifs
        · exact iha k va hka hva
        · exact ihb k vb hkb hvb
    case unknown =>
      obtain ⟨hknown', -⟩ | ⟨-, va, vb, hva, hvb, -⟩ := hv
      · obtain rfl := kept.1 c .truth vc vc' hkc hvc hvc' hknown'
        rw [hknown'] at hunknown
        cases hunknown
      · exact ⟨iha k va hka hva, ihb k vb hkb hvb⟩
  case app =>
    intro op indices args hnotImplies hnotIte ih k v hk hv
    have happ (τ : State) : τ.eval (.app op indices args) =
      τ.evalAll args >>= τ.applyOp op indices := State.eval.eq_8 _ _ _ _ ‹_› ‹_›
    obtain ⟨ks, hks, rank⟩ := hk
    rw [happ] at hv
    obtain ⟨vals, hvals, -⟩ := exists_ok_of_bind hv
    exact (ih ks vals hks hvals).app wk' hks rank
      (plain_of_rank rank hks.length_eq hnotImplies hnotIte) (happ s')
  case nil =>
    intro _ _ _ _
    exact .inl ⟨[], by rw [State.evalAll]⟩
  case cons =>
    intro t rest iht ihrest ks vs hks hvs
    obtain ⟨k, ks, rfl, hk, hks⟩ := hks
    rw [State.evalAll] at hvs
    obtain ⟨v, hv, hvs⟩ := exists_ok_of_bind hvs
    obtain ⟨us, hus, -⟩ := exists_ok_of_bind hvs
    exact State.HandlesAll.cons (iht k v hk hv) (ihrest ks us hks hus)

/-! ## Points of a run -/

/-- Each definition by a well sorted equality keeps what is known. -/
theorem linked_keptBy {bound : Nat} (le : bound ≤ wrapBound) :
    Linked (AssertableBelow bound sig) (·.WellKinded sig)
      fun s s' => s'.WellKinded sig ∧ s.KeptBy s' where
  conjunct _ _ h := h.of_and
  consequent _ _ _ h := h.of_implies.2
  define s _ a b d wk h hd := by
    obtain ⟨k, ha, hb, hza, hzb⟩ := h.of_eq
    refine ⟨State.define_wellKinded le hd wk ha hb hza hzb, ?_⟩
    rcases State.defines_of_define hd with h | h
    · exact h.keptBy_add wk ha
    · exact h.keptBy_add wk hb
  keeps _ _ _ h := h.1

/-- A point of a run keeps what is known at the points before it. -/
theorem pairwise_keptBy {bound : Nat} (le : bound ≤ wrapBound) (sorted : f.WellSorted)
    (short : f.ExtensionsBelow bound) : (points f).Pairwise State.KeptBy := by
  have hchain := (linked_keptBy le).isChain_points
    (fun _ h => (declareAll_spec sorted.unique h).1)
    fun t ht => ⟨sorted.asserted t ht, short t ht⟩
  have trans : IsTrans State State.KeptBy := ⟨fun _ _ _ h h' => h.trans h'⟩
  exact List.isChain_iff_pairwise.1 (hchain.imp fun _ _ h => h.2)

/-- What is known of a well sorted term at a point of a run over a well sorted formula is known of
it at every later point, unless the term is refused there for a word of more than 64 bits. What is
known of a cell of a memory stays known, and the same memories have the same cells. -/
theorem known_stays_known (sorted : f.WellSorted) (short : f.ExtensionsBelow extensionBound) :
    (points f).Pairwise fun s s' =>
      (∀ t k v, t.HasKind f.signature k → s.eval t = .ok v → v.known = true →
        s'.eval t = .ok v ∨ s'.RefusesWide f.signature t) ∧
      (∀ (m : Memory) (i v : UInt64), s.lookup m i = some v → s'.lookup m i = some v) ∧
      ∀ m n : Memory, m.same n = true → ∀ i, s'.lookup m i = s'.lookup n i := by
  have hkinds := (kept_wellKinded extensionBound_le).forall_points
    (fun _ h => (declareAll_spec sorted.unique h).1)
    fun t ht => ⟨sorted.asserted t ht, short t ht⟩
  refine (pairwise_keptBy extensionBound_le sorted short).imp_of_mem fun hs hs' kept => ?_
  refine ⟨fun t k v hk hv known => ?_, fun m i v => kept.lookup, fun m n hsame i => ?_⟩
  · rcases (State.handles_later_and_evalAll kept (hkinds _ hs) (hkinds _ hs')).1 t k v hk hv
      with ⟨v', hv'⟩ | refused
    · obtain rfl := (State.eval_keptBy_and_evalAll kept (hkinds _ hs) (hkinds _ hs')).1 t k v v' hk
        hv hv' known
      exact .inl hv'
    · exact .inr refused
  · simp only [Memory.same, Bool.and_eq_true, beq_iff_eq] at hsame
    rw [State.lookup, State.lookup, hsame.1, hsame.2]

/-- Two arrays that are made one memory, of which each gets a cell. -/
def sharedMemory : Formula :=
  [.declareArray ⟨"a"⟩ ⟨8⟩ ⟨8⟩, .declareArray ⟨"b"⟩ ⟨8⟩ ⟨8⟩,
    .assert (.app .eq [] [.app .select [] [.symbol ⟨"a"⟩, .hex "00"], .hex "05"]),
    .assert (.app .eq [] [.symbol ⟨"b"⟩, .symbol ⟨"a"⟩]),
    .assert (.app .eq [] [.app .select [] [.symbol ⟨"b"⟩, .hex "01"], .hex "07"])]

theorem sharedMemory_sorted :
    sharedMemory.WellSorted ∧ sharedMemory.ExtensionsBelow extensionBound := by
  have ha : ("a", Kind.array 8 8) ∈ sharedMemory.signature := by decide
  have hb : ("b", Kind.array 8 8) ∈ sharedMemory.signature := by decide
  have hcell {x : String} {digits byte : String} (hx : (x, Kind.array 8 8) ∈ sharedMemory.signature)
      (hdigits : digits.length = 2) (hbyte : byte.length = 2) :
      (Term.app .eq [] [.app .select [] [.symbol ⟨x⟩, .hex digits], .hex byte]).HasKind
        sharedMemory.signature .truth := by
    have hindex : (Term.hex digits).HasKind sharedMemory.signature (.bits 8) := by
      simp [Term.HasKind, hdigits]
    have hvalue : (Term.hex byte).HasKind sharedMemory.signature (.bits 8) := by
      simp [Term.HasKind, hbyte]
    exact ⟨_, Term.haveKinds_pair.2 ⟨⟨_, Term.haveKinds_pair.2 ⟨hx, hindex⟩, .select⟩, hvalue⟩,
      .equality (k := .bits 8) (by simp) (by simp)⟩
  refine ⟨⟨by decide, fun t ht => ?_⟩, fun t ht => ?_⟩
  · simp only [sharedMemory, List.mem_cons, List.not_mem_nil, or_false, reduceCtorEq, false_or,
      Command.assert.injEq] at ht
    rcases ht with rfl | rfl | rfl
    · exact hcell ha rfl rfl
    · exact ⟨_, Term.haveKinds_pair.2 ⟨hb, ha⟩,
        .equality (k := .array 8 8) (by simp) (by simp)⟩
    · exact hcell hb rfl rfl
  · simp only [sharedMemory, List.mem_cons, List.not_mem_nil, or_false, reduceCtorEq, false_or,
      Command.assert.injEq] at ht
    rcases ht with rfl | rfl | rfl <;> simp [Term.ExtensionsBelow, Term.AllExtensionsBelow]

theorem points_sharedMemory : ∃ s₀ s₁ s₂ s₃, points sharedMemory = [s₀, s₁, s₂, s₃] ∧
    s₂.eval (.app .select [] [.symbol ⟨"b"⟩, .hex "00"]) = .ok (.bits 5 8) ∧
    s₂.eval (.app .select [] [.symbol ⟨"a"⟩, .hex "01"]) = .ok .unknown ∧
    s₃.eval (.app .select [] [.symbol ⟨"a"⟩, .hex "01"]) = .ok (.bits 7 8) := by
  have hzero : constant 16 "00" ("00".length * 4) = .ok (.bits 0 8) := rfl
  have hone : constant 16 "01" ("01".length * 4) = .ok (.bits 1 8) := rfl
  have hfive : constant 16 "05" ("05".length * 4) = .ok (.bits 5 8) := rfl
  have hseven : constant 16 "07" ("07".length * 4) = .ok (.bits 7 8) := rfl
  have h8 : indexInt ⟨8⟩ = 8 := rfl
  have hword5 : Value.ofWord 5 8 = .bits 5 8 := rfl
  have hword7 : Value.ofWord 7 8 = .bits 7 8 := rfl
  simp [points, sharedMemory, declareAll, State.declare, assertedTerms, passPoints_eq, pass,
    Progress.allPoints, Progress.points, Progress.settle, Progress.equate, Progress.add,
    State.define, State.defineTerm, State.defineSymbol, State.defineSelect, State.defineCell,
    State.add, State.eval, State.evalAll, State.symbol, State.applyOp, State.strict, Value.known,
    Value.word, State.lookup, Memory.isRoot, hzero, hone, hfive, hseven, h8, hword5, hword7, bind,
    Except.bind, pure, Except.pure, Std.HashMap.getElem?_insert, -getElem?_pos]

/-- A cell that is read through one array stays known while the other gets a cell, which the first
one has too. -/
theorem known_stays_known_sharedMemory : ∃ s s', [s, s'].Sublist (points sharedMemory) ∧
    s.eval (.app .select [] [.symbol ⟨"b"⟩, .hex "00"]) = .ok (.bits 5 8) ∧
    s'.eval (.app .select [] [.symbol ⟨"b"⟩, .hex "00"]) = .ok (.bits 5 8) ∧
    s.eval (.app .select [] [.symbol ⟨"a"⟩, .hex "01"]) = .ok .unknown ∧
    s'.eval (.app .select [] [.symbol ⟨"a"⟩, .hex "01"]) = .ok (.bits 7 8) := by
  obtain ⟨s₀, s₁, s₂, s₃, hpoints, hfive, hunknown, hseven⟩ := points_sharedMemory
  have hsub : [s₂, s₃].Sublist (points sharedMemory) := by
    rw [hpoints]
    exact ((List.Sublist.refl _).cons s₁).cons s₀
  have hknown := known_stays_known sharedMemory_sorted.1 sharedMemory_sorted.2
  have hpair := List.pairwise_iff_forall_sublist.1 hknown hsub
  have hkind : (Term.app .select [] [.symbol ⟨"b"⟩, .hex "00"]).HasKind sharedMemory.signature
      (.bits 8) :=
    ⟨_, Term.haveKinds_pair.2 ⟨(by decide : ("b", Kind.array 8 8) ∈ sharedMemory.signature), rfl⟩,
      .select⟩
  refine ⟨s₂, s₃, hsub, hfive, ?_, hunknown, hseven⟩
  rcases hpair.1 _ _ _ hkind hfive rfl with h | ⟨_, -, op, _, _, _, within, -, -, refuses⟩
  · exact h
  · obtain ⟨rfl, -⟩ : op = .select ∧ _ := by simpa [Term.within_app, Term.within_leaf] using within
    cases refuses

/-- A word of forty bits that is defined. -/
def definedWord : Formula :=
  [.declareBits ⟨"a"⟩ ⟨40⟩, .assert (.app .eq [] [.symbol ⟨"a"⟩, .hex "0000000001"])]

/-- A term that is true, whatever the word, with a part of eighty bits. -/
def wideTruth : Term :=
  .app .or [] [.bool true, .app .eq []
    [.app .concat [] [.symbol ⟨"a"⟩, .symbol ⟨"a"⟩],
      .app .concat [] [.symbol ⟨"a"⟩, .symbol ⟨"a"⟩]]]

/-- A choice between five of eight bits and five of sixteen bits, which have no common sort. -/
def unevenChoice : Term :=
  .app .ite [] [.app .eq [] [.symbol ⟨"a"⟩, .hex "0000000000"], .hex "05", .hex "0005"]

/-- As soon as the word is known, a well sorted term that was known to be true is refused, and an
ill sorted one gets another width. -/
theorem wideTruth_lost : definedWord.WellSorted ∧ definedWord.ExtensionsBelow extensionBound ∧
    wideTruth.HasKind definedWord.signature .truth ∧
    ∃ s s', [s, s'].Sublist (points definedWord) ∧
      s.eval wideTruth = .ok (.bool true) ∧
      s'.eval wideTruth = .error (.unsupported "concatenation wider than 64 bits") ∧
      s.eval unevenChoice = .ok (.bits 5 8) ∧ s'.eval unevenChoice = .ok (.bits 5 16) := by
  have ha : ("a", Kind.bits 40) ∈ definedWord.signature := by decide
  have hone : constant 16 "0000000001" ("0000000001".length * 4) = .ok (.bits 1 40) := rfl
  have hzero : constant 16 "0000000000" ("0000000000".length * 4) = .ok (.bits 0 40) := rfl
  have hshort : constant 16 "05" ("05".length * 4) = .ok (.bits 5 8) := rfl
  have hlong : constant 16 "0005" ("0005".length * 4) = .ok (.bits 5 16) := rfl
  have h40 : indexInt ⟨40⟩ = 40 := rfl
  have hword : Value.ofWord 1 40 = .bits 1 40 := rfl
  refine ⟨⟨by decide, fun t ht => ?_⟩, fun t ht => ?_, ?_, ?_⟩
  · obtain rfl : t = .app .eq [] [.symbol ⟨"a"⟩, .hex "0000000001"] := by
      simpa [definedWord] using ht
    exact ⟨[.bits 40, .bits 40], Term.haveKinds_pair.2 ⟨ha, rfl⟩,
      .equality (k := .bits 40) (by simp) (by simp)⟩
  · obtain rfl : t = .app .eq [] [.symbol ⟨"a"⟩, .hex "0000000001"] := by
      simpa [definedWord] using ht
    simp [Term.ExtensionsBelow, Term.AllExtensionsBelow]
  · have hwide : (Term.app .concat [] [.symbol ⟨"a"⟩, .symbol ⟨"a"⟩]).HasKind
        definedWord.signature (.bits 80) := ⟨_, Term.haveKinds_pair.2 ⟨ha, ha⟩, .concat⟩
    have hequal : (Term.app .eq [] [.app .concat [] [.symbol ⟨"a"⟩, .symbol ⟨"a"⟩],
        .app .concat [] [.symbol ⟨"a"⟩, .symbol ⟨"a"⟩]]).HasKind definedWord.signature .truth :=
      ⟨_, Term.haveKinds_pair.2 ⟨hwide, hwide⟩, .equality (k := .bits 80) (by simp) (by simp)⟩
    exact ⟨_, Term.haveKinds_pair.2 ⟨rfl, hequal⟩, .connective (by simp) (by simp)⟩
  · obtain ⟨s, s', hpoints, hvalues⟩ : ∃ s s', points definedWord = [s, s'] ∧
        s.eval wideTruth = .ok (.bool true) ∧
        s'.eval wideTruth = .error (.unsupported "concatenation wider than 64 bits") ∧
        s.eval unevenChoice = .ok (.bits 5 8) ∧ s'.eval unevenChoice = .ok (.bits 5 16) := by
      simp [points, definedWord, wideTruth, unevenChoice, declareAll, State.declare, assertedTerms,
        passPoints_eq, pass, Progress.allPoints, Progress.points, Progress.settle,
        Progress.equate, Progress.add, State.define, State.defineTerm, State.defineSymbol,
        State.add, State.eval, State.evalAll, State.symbol, State.applyOp, State.strict,
        disjunction, chainEqual, Value.equal, Value.known, Value.truth, Value.word, Value.width,
        Tri.value, Tri.ofBool, hone, hzero, hshort, hlong, h40, hword, bind, Except.bind, pure,
        Except.pure, -getElem?_pos]
    exact ⟨s, s', by rw [hpoints], hvalues⟩

end CycleCheck.Propagation
