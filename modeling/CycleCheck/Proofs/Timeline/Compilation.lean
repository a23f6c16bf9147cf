import CycleCheck.Machine
import CycleCheck.Proofs.Term.Build

/-!
What blocks say. A block gets one symbol for every name it reads and a fresh one for every name it
writes; its meaning is a relation between the values read and the values written, whatever the
symbols are. A timeline hands the latest version of a name to a reader and the next one to a
writer, so a list of blocks says the conjunction of what they say at these versions.
-/

namespace CycleCheck

/-! ## Names and bindings -/

/-- A name whose versions are symbols. -/
def IsName (x : String) : Prop := Symbol.parse x = .ok ⟨x⟩

instance (x : String) : Decidable (IsName x) := by
  unfold IsName
  infer_instance

theorem isSymbolChar_of_isDigit {c : Char} (h : c.isDigit = true) :
    Symbol.isSymbolChar c = true := by
  rw [Char.isDigit_iff_toNat] at h
  simp only [Symbol.isSymbolChar, Bool.or_eq_true, Bool.and_eq_true, decide_eq_true_eq]
  exact .inl (.inr h)

/-- A name may go on with any characters of symbols. -/
theorem IsName.append {x y : String} (hx : IsName x)
    (hy : y.toList.all Symbol.isSymbolChar = true) : IsName (x ++ y) := by
  unfold IsName Symbol.parse at hx ⊢
  rw [String.toList_append]
  cases hlist : x.toList with
  | nil => simp [hlist] at hx
  | cons c rest =>
    simp only [hlist] at hx
    split_ifs at hx with hbad
    rw [List.cons_append]
    simp_all

theorem parse_versionedName {x : String} (h : IsName x) (v : Nat) :
    Symbol.parse (Timeline.versionedName x v) = .ok ⟨Timeline.versionedName x v⟩ := by
  have hdigits : (Text.decimal v).toList.all Symbol.isSymbolChar = true := by
    rw [Text.decimal, Text.digits, String.toList_ofList, List.all_eq_true]
    exact fun c hc =>
      isSymbolChar_of_isDigit (Nat.isDigit_of_mem_toDigits (by decide) (by decide) hc)
  exact (h.append (by decide)).append hdigits

/-- The binding of names to their symbols. -/
def Binding.of (names : List String) (σ : String → Symbol) : Binding :=
  names.map fun x => (x, σ x)

@[simp] theorem Binding.names_of (names : List String) (σ : String → Symbol) :
    (Binding.of names σ).names = names := by
  simp [Binding.names, Binding.of, Function.comp_def]

/-- The block does not change the symbols that it is handed. -/
def Block.Keeps (b : Block) : Prop := ∀ ins outs, b.leaves ins outs = outs

theorem Binding.symbol_of {names : List String} {σ : String → Symbol} {x : String}
    (h : x ∈ names) : (Binding.of names σ).symbol x = σ x := by
  unfold Binding.symbol Binding.of
  induction names with
  | nil => cases h
  | cons y rest ih =>
    by_cases hxy : x = y
    · simp [hxy]
    · have hmem : x ∈ rest := (List.mem_cons.1 h).resolve_left hxy
      have hne : (x == y) = false := by simp [hxy]
      simp only [List.map_cons, List.lookup_cons, hne]
      exact ih hmem

theorem Binding.term_of {names : List String} {σ : String → Symbol} {x : String}
    (h : x ∈ names) : (Binding.of names σ).term x = .symbol (σ x) := by
  rw [Binding.term, Binding.symbol_of h]

/-- Commands for every element, each with what is said of it. -/
theorem exists_mapM {α β ε : Type} {f : α → Except ε β} {P : α → β → Prop} {l : List α}
    (h : ∀ a ∈ l, ∃ b, f a = .ok b ∧ P a b) : ∃ bs, l.mapM f = .ok bs ∧ List.Forall₂ P l bs := by
  induction l with
  | nil => exact ⟨[], rfl, .nil⟩
  | cons a rest ih =>
    obtain ⟨⟨b, hb, hP⟩, hrest⟩ := List.forall_mem_cons.1 h
    obtain ⟨bs, hbs, hforall⟩ := ih hrest
    exact ⟨b :: bs, by rw [List.mapM_cons, hb, hbs]; rfl, .cons hP hforall⟩

theorem mapM_eq_ok {α β ε : Type} {f : α → Except ε β} {g : α → β} {l : List α}
    (h : ∀ a ∈ l, f a = .ok (g a)) : l.mapM f = .ok (l.map g) := by
  induction l with
  | nil => rfl
  | cons a rest ih =>
    obtain ⟨ha, hrest⟩ := List.forall_mem_cons.1 h
    rw [List.mapM_cons, ha, ih hrest]
    rfl

/-! ## Timelines -/

namespace Timeline

variable (t : Timeline)

/-- The symbol that a writer of a name gets. -/
def fresh (x : String) : Symbol := ⟨versionedName x (t.next x)⟩

/-- The symbol that a reader of a name gets, if there is one. -/
def latest (x : String) : Symbol := ⟨versionedName x (t.next x - 1)⟩

/-- The names for which a block leaves a symbol when it is applied. -/
def left (b : Block) : List String :=
  (b.leaves (.of b.reads t.latest) (.of b.writes t.fresh)).names

variable {t}

theorem current_eq {x : String} (hname : IsName x) (h : 0 < t.next x) :
    t.current x = .ok (t.latest x) := by
  unfold current latest
  unfold next at h ⊢
  cases hv : t.versions[x]? with
  | none => simp [hv] at h
  | some v => simp [parse_versionedName hname, Except.mapError]

theorem bindReads_eq {names : List String} (hnames : ∀ x ∈ names, IsName x ∧ 0 < t.next x) :
    t.bindReads names = .ok (Binding.of names t.latest) := by
  unfold bindReads Binding.of
  induction names with
  | nil => rfl
  | cons x rest ih =>
    obtain ⟨⟨hname, hpos⟩, hrest⟩ := List.forall_mem_cons.1 hnames
    rw [List.mapM_cons, ih hrest, current_eq hname hpos]
    rfl

theorem bindWrites_eq {names : List String} (hnames : ∀ x ∈ names, IsName x) :
    t.bindWrites names = .ok (Binding.of names t.fresh) := by
  unfold bindWrites Binding.of
  induction names with
  | nil => rfl
  | cons x rest ih =>
    obtain ⟨hname, hrest⟩ := List.forall_mem_cons.1 hnames
    rw [List.mapM_cons, ih hrest, parse_versionedName hname]
    rfl

theorem left_of_keeps {b : Block} (keeps : b.Keeps) : t.left b = b.writes := by
  rw [left, keeps, Binding.names_of]

theorem apply_eq {b : Block} {f : Formula} (keeps : b.Keeps)
    (hreads : ∀ x ∈ b.reads, IsName x ∧ 0 < t.next x) (hwrites : ∀ x ∈ b.writes, IsName x)
    (hgen : b.generate (.of b.reads t.latest) (.of b.writes t.fresh) = .ok f) :
    t.apply b = .ok (f, t.advance b.writes) := by
  rewrite [apply, bindReads_eq hreads, bindWrites_eq hwrites]
  dsimp only [bind, Except.bind]
  rewrite [hgen]
  dsimp only
  rewrite [keeps, Binding.names_of]
  rfl

/-- Writing a name gives it one version more. -/
theorem next_advance (names : List String) (x : String) :
    (t.advance names).next x = if x ∈ names then t.next x + 1 else t.next x := by
  have hfold : ∀ (l : List String) (vs : Std.HashMap String Nat),
      (l.foldl (fun vs y => vs.insert y (t.next y)) vs)[x]? =
        if x ∈ l then some (t.next x) else vs[x]? := by
    intro l
    induction l with
    | nil => simp
    | cons y rest ih =>
      intro vs
      rw [List.foldl_cons, ih, Std.HashMap.getElem?_insert]
      by_cases hy : y = x
      · simp [hy]
      · simp [hy, Ne.symm hy]
  have hversion : (t.advance names).versions[x]? =
      if x ∈ names then some (t.next x) else t.versions[x]? := hfold names t.versions
  rw [next, hversion]
  by_cases hx : x ∈ names
  · simp [hx]
  · rw [if_neg hx, if_neg hx, next]

theorem pos_advance {names : List String} {x : String} (h : x ∈ names ∨ 0 < t.next x) :
    0 < (t.advance names).next x := by
  rw [next_advance]
  split_ifs with hx
  · exact Nat.succ_pos _
  · exact h.resolve_left hx

/-- What was just written is what is read next. -/
theorem latest_advance {names : List String} {x : String} (h : x ∈ names) :
    (t.advance names).latest x = t.fresh x := by
  rw [latest, next_advance, if_pos h, Nat.add_sub_cancel, fresh]

theorem latest_advance_of_notMem {names : List String} {x : String} (h : x ∉ names) :
    (t.advance names).latest x = t.latest x := by
  rw [latest, next_advance, if_neg h, latest]

theorem fresh_advance_of_notMem {names : List String} {x : String} (h : x ∉ names) :
    (t.advance names).fresh x = t.fresh x := by
  rw [fresh, next_advance, if_neg h, fresh]

end Timeline

/-! ## What a block says -/

/-- Values of variables. -/
abbrev Valuation := String → Meaning

/-- A block keeps its symbols and generates commands from any symbols, and in the interpretations of
what it declares they say `Q` of the values read and written where the values read satisfy `G`. -/
structure Block.Says {σ : Type} (b : Block) (G : σ → Valuation → Prop)
    (Q : σ → Valuation → Valuation → Prop) : Prop where
  keeps : b.Keeps
  means : ∀ ρ ω : String → Symbol, ∃ f, b.generate (.of b.reads ρ) (.of b.writes ω) = .ok f ∧
    ∀ (s : σ) (I : Interpretation), I.Fits f.signature → G s (fun x => I (ρ x).name) →
      (I.Satisfies f ↔ Q s (fun x => I (ρ x).name) (fun x => I (ω x).name))

theorem Block.Says.comap {σ τ : Type} {b : Block} {G : σ → Valuation → Prop}
    {Q : σ → Valuation → Valuation → Prop} (h : b.Says G Q) (p : τ → σ) :
    b.Says (fun s => G (p s)) (fun s => Q (p s)) := by
  refine ⟨h.keeps, fun ρ ω => ?_⟩
  obtain ⟨f, hgen, hf⟩ := h.means ρ ω
  exact ⟨f, hgen, fun s => hf (p s)⟩

/-- Blocks applied in order to a timeline, with the commands of each. -/
inductive Timeline.Yields : Timeline → List Block → List Formula → Timeline → Prop where
  | nil {t : Timeline} : Yields t [] [] t
  | cons {t t' t'' : Timeline} {b : Block} {bs : List Block} {f : Formula} {fs : List Formula}
      (first : t.apply b = .ok (f, t')) (rest : Yields t' bs fs t'') :
      Yields t (b :: bs) (f :: fs) t''

theorem Timeline.Yields.append {t t' t'' : Timeline} {bs bs' : List Block} {fs fs' : List Formula}
    (h : t.Yields bs fs t') (h' : t'.Yields bs' fs' t'') :
    t.Yields (bs ++ bs') (fs ++ fs') t'' := by
  induction h with
  | nil => exact h'
  | cons first _ ih => exact .cons first (ih h')

/-- Blocks yield one list of commands and end in one timeline. -/
theorem Timeline.Yields.functional {t t' t'' : Timeline} {bs : List Block} {fs fs' : List Formula}
    (h : t.Yields bs fs t') (h' : t.Yields bs fs' t'') : fs = fs' ∧ t' = t'' := by
  induction h generalizing fs' with
  | nil =>
    cases h'
    exact ⟨rfl, rfl⟩
  | cons first _ ih =>
    cases h' with
    | cons first' rest' =>
      cases first.symm.trans first'
      obtain ⟨rfl, rfl⟩ := ih rest'
      exact ⟨rfl, rfl⟩

/-- The interpretations of the declared symbols that satisfy `G` make the commands of the blocks
true exactly if they satisfy `Q`. -/
def Timeline.Compiles {σ : Type} (t : Timeline) (bs : List Block) (t' : Timeline)
    (G Q : σ → Interpretation → Prop) : Prop :=
  ∃ fs, t.Yields bs fs t' ∧ ∀ (s : σ) (I : Interpretation), (∀ f ∈ fs, I.Fits f.signature) →
    G s I → ((∀ f ∈ fs, I.Satisfies f) ↔ Q s I)

namespace Timeline.Compiles

variable {σ : Type} {t t' t'' : Timeline} {bs bs' : List Block}
  {G G' Q R : σ → Interpretation → Prop}

theorem nil (h : ∀ s I, G s I → Q s I) : t.Compiles [] t G Q :=
  ⟨[], .nil, fun s I _ hG => iff_of_true (by simp) (h s I hG)⟩

/-- What later blocks say may rest on what earlier ones say. -/
theorem append (h : t.Compiles bs t' G Q) (h' : t'.Compiles bs' t'' G' R)
    (hG : ∀ s I, G s I → Q s I → G' s I) :
    t.Compiles (bs ++ bs') t'' G (fun s I => Q s I ∧ R s I) := by
  obtain ⟨fs, hyields, hfs⟩ := h
  obtain ⟨fs', hyields', hfs'⟩ := h'
  refine ⟨fs ++ fs', hyields.append hyields', fun s I fits hs => ?_⟩
  obtain ⟨hfits, hfits'⟩ := List.forall_mem_append.1 fits
  rw [List.forall_mem_append, hfs s I hfits hs]
  exact and_congr_right fun hQ => hfs' s I hfits' (hG s I hs hQ)

/-- What later blocks say may be said of a value that earlier ones fix. -/
theorem andThen {τ : Type} {K : σ → τ → Interpretation → Prop} {S T : τ → Interpretation → Prop}
    (h : t.Compiles bs t' G (fun s I => ∃ u, K s u I)) (h' : t'.Compiles bs' t'' S T)
    (hS : ∀ s u I, G s I → K s u I → S u I) :
    t.Compiles (bs ++ bs') t'' G (fun s I => ∃ u, K s u I ∧ T u I) := by
  obtain ⟨fs, hyields, hfs⟩ := h
  obtain ⟨fs', hyields', hfs'⟩ := h'
  refine ⟨fs ++ fs', hyields.append hyields', fun s I fits hs => ?_⟩
  obtain ⟨hfits, hfits'⟩ := List.forall_mem_append.1 fits
  rw [List.forall_mem_append, hfs s I hfits hs]
  constructor
  · rintro ⟨⟨u, hu⟩, hsat⟩
    exact ⟨u, hu, (hfs' u I hfits' (hS s u I hs hu)).1 hsat⟩
  · rintro ⟨u, hu, hT⟩
    exact ⟨⟨u, hu⟩, (hfs' u I hfits' (hS s u I hs hu)).2 hT⟩

theorem congr (h : t.Compiles bs t' G Q) (hQR : ∀ s I, G s I → (Q s I ↔ R s I)) :
    t.Compiles bs t' G R := by
  obtain ⟨fs, hyields, hfs⟩ := h
  exact ⟨fs, hyields, fun s I fits hG => (hfs s I fits hG).trans (hQR s I hG)⟩

theorem weaken (h : t.Compiles bs t' G Q) (hG : ∀ s I, G' s I → G s I) :
    t.Compiles bs t' G' Q := by
  obtain ⟨fs, hyields, hfs⟩ := h
  exact ⟨fs, hyields, fun s I fits hs => hfs s I fits (hG s I hs)⟩

theorem block {b : Block} {P : σ → Valuation → Prop} {S : σ → Valuation → Valuation → Prop}
    (meaning : b.Says P S)
    (hreads : ∀ x ∈ b.reads, IsName x ∧ 0 < t.next x) (hwrites : ∀ x ∈ b.writes, IsName x)
    (hG : ∀ s I, G s I → P s fun x => I (t.latest x).name) :
    t.Compiles [b] (t.advance b.writes) G
      (fun s I => S s (fun x => I (t.latest x).name) fun x => I (t.fresh x).name) := by
  obtain ⟨f, hgen, hmeans⟩ := meaning.means t.latest t.fresh
  refine ⟨[f], .cons (Timeline.apply_eq meaning.keeps hreads hwrites hgen) .nil,
    fun s I fits hs => ?_⟩
  rw [List.forall_mem_singleton] at fits ⊢
  exact hmeans s I fits (hG s I hs)

end Timeline.Compiles

/-! ## Machines -/

namespace Machine

variable {sys : Machine}

theorem formula_eq : sys.formula = .logic ⟨"QF_ABV"⟩ :: sys.fragments.reverse.flatten := by
  have hfold : ∀ (fs : List Formula) (acc : Formula),
      fs.foldl (fun acc f => f ++ acc) acc = fs.reverse.flatten ++ acc := by
    intro fs
    induction fs with
    | nil => exact fun acc => rfl
    | cons f rest ih =>
      intro acc
      rw [List.foldl_cons, ih, List.reverse_cons, List.flatten_append, List.append_assoc]
      simp
  rw [formula, hfold, List.append_nil]

/-- The machine after blocks. -/
theorem applyBlocks_eq {bs : List Block} {fs : List Formula} {t : Timeline}
    (h : sys.timeline.Yields bs fs t) : ∃ size, sys.applyBlocks bs =
      ({ sys with timeline := t, fragments := fs.reverse ++ sys.fragments, size }, .ok ()) := by
  generalize ht : sys.timeline = t₀ at h
  induction h generalizing sys with
  | nil =>
    subst ht
    exact ⟨sys.size, rfl⟩
  | @cons _ t₁ _ b bs f fs first _ ih =>
    subst ht
    rw [applyBlocks, first]
    obtain ⟨size, hsize⟩ := @ih { sys with
      timeline := t₁
      fragments := f :: sys.fragments
      size := sys.size + f.length } rfl
    exact ⟨size, by simp [hsize]⟩

/-- The formula grows by commands that the interpretations of what they declare satisfy exactly if
they satisfy `Q`, where they satisfy `G`. -/
def Grows {σ : Type} (sys sys' : Machine) (G Q : σ → Interpretation → Prop) : Prop :=
  ∃ f, sys'.formula = sys.formula ++ f ∧ ∀ (s : σ) (I : Interpretation), I.Fits f.signature →
    G s I → (I.Satisfies f ↔ Q s I)

theorem Grows.congr {σ : Type} {sys sys' : Machine} {G Q R : σ → Interpretation → Prop}
    (h : sys.Grows sys' G Q) (hQR : ∀ s I, G s I → (Q s I ↔ R s I)) : sys.Grows sys' G R := by
  obtain ⟨f, hformula, hf⟩ := h
  exact ⟨f, hformula, fun s I fits hs => (hf s I fits hs).trans (hQR s I hs)⟩

theorem Grows.andThen {σ τ : Type} {sys sys' sys'' : Machine} {G : σ → Interpretation → Prop}
    {K : σ → τ → Interpretation → Prop} {S T : τ → Interpretation → Prop}
    (h : sys.Grows sys' G (fun s I => ∃ u, K s u I)) (h' : sys'.Grows sys'' S T)
    (hS : ∀ s u I, G s I → K s u I → S u I) :
    sys.Grows sys'' G (fun s I => ∃ u, K s u I ∧ T u I) := by
  obtain ⟨f, hformula, hf⟩ := h
  obtain ⟨f', hformula', hf'⟩ := h'
  refine ⟨f ++ f', by rw [hformula', hformula, List.append_assoc], fun s I fits hs => ?_⟩
  obtain ⟨hfits, hfits'⟩ := Interpretation.fits_append.1 fits
  rw [Interpretation.satisfies_append, hf s I hfits hs]
  constructor
  · rintro ⟨⟨u, hu⟩, hsat⟩
    exact ⟨u, hu, (hf' u I hfits' (hS s u I hs hu)).1 hsat⟩
  · rintro ⟨u, hu, hT⟩
    exact ⟨⟨u, hu⟩, (hf' u I hfits' (hS s u I hs hu)).2 hT⟩

/-- Blocks make the formula grow by what they say. -/
theorem exists_apply {σ : Type} {bs : List Block} {t : Timeline} {G Q : σ → Interpretation → Prop}
    (h : sys.timeline.Compiles bs t G Q) (label : String) :
    ∃ fragments size log, sys.apply label bs =
        ({ sys with timeline := t, fragments, size, log }, .ok ()) ∧
      ∀ sys' : Machine, sys'.fragments = fragments → sys.Grows sys' G Q := by
  obtain ⟨fs, hyields, hfs⟩ := h
  obtain ⟨size, hsize⟩ := applyBlocks_eq hyields
  refine ⟨fs.reverse ++ sys.fragments, size, _, by rw [apply, hsize],
    fun sys' hsys' => ⟨fs.flatten, ?_, fun s I fits hs => ?_⟩⟩
  · rw [formula_eq, formula_eq, hsys', List.reverse_append, List.reverse_reverse,
      List.flatten_append, List.cons_append]
  · rw [Interpretation.satisfies_flatten]
    exact hfs s I (Interpretation.fits_flatten.1 fits) hs

end Machine

end CycleCheck
