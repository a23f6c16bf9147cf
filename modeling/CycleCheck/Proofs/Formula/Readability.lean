import CycleCheck.Formula
import CycleCheck.Proofs.Timeline.SingleAssignment

/-!
What is written can be read in one way only. A word goes on until a blank, a parenthesis or a line
feed, and what a term is can be told from its text as soon as one of these follows. A command has
no line feed in its text, so the lines of a formula are the texts of its commands.
-/

namespace CycleCheck

/-! ## Words -/

/-- The characters that a word ends at. -/
def isDelimiter (c : Char) : Bool := c = ' ' || c = '(' || c = ')' || c = '\n'

/-- At least one character, and no delimiter. -/
structure IsWord (w : List Char) : Prop where
  ne_nil : w ≠ []
  inside : ∀ c ∈ w, isDelimiter c = false

theorem isWord_of_all {w : List Char} (hne : w.isEmpty = false)
    (hall : w.all (fun c => !isDelimiter c) = true) : IsWord w :=
  ⟨by simpa using hne, fun c hc => by simpa using List.all_eq_true.1 hall c hc⟩

/-- Nothing follows, or a delimiter does. -/
def Delimited (xs : List Char) : Prop := ∀ c, xs.head? = some c → isDelimiter c = true

theorem delimited_nil : Delimited [] := nofun

theorem delimited_cons {c : Char} (xs : List Char) (h : isDelimiter c = true) :
    Delimited (c :: xs) := by
  rintro d ⟨⟩
  exact h

/-- One of two words is not longer than the other, or the next character would be a delimiter. -/
theorem IsWord.eq_nil_of_append {w between xs : List Char} (hw : IsWord (w ++ between))
    (hxs : Delimited (between ++ xs)) : between = [] := by
  cases between with
  | nil => rfl
  | cons c rest =>
    have hinside := hw.inside c (by simp)
    rw [hxs c rfl] at hinside
    cases hinside

theorem IsWord.append_inj {v w xs ys : List Char} (hv : IsWord v) (hw : IsWord w)
    (hxs : Delimited xs) (hys : Delimited ys) (h : v ++ xs = w ++ ys) : v = w ∧ xs = ys := by
  rcases List.append_eq_append_iff.1 h with ⟨between, rfl, rfl⟩ | ⟨between, rfl, rfl⟩
  · obtain rfl := hw.eq_nil_of_append hxs
    simp
  · obtain rfl := hv.eq_nil_of_append hys
    simp

theorem IsWord.append_ne_open {w xs ys : List Char} (hw : IsWord w) : w ++ xs ≠ '(' :: ys := by
  intro h
  obtain ⟨c, rest, rfl⟩ := List.exists_cons_of_ne_nil hw.ne_nil
  have hinside := hw.inside c List.mem_cons_self
  rw [(List.cons.inj h).1] at hinside
  exact absurd hinside (by decide)

theorem IsWord.newline_notMem {w : List Char} (hw : IsWord w) : '\n' ∉ w :=
  fun h => absurd (hw.inside _ h) (by decide)

theorem isDelimiter_of_isSymbolChar {c : Char} (h : Symbol.isSymbolChar c = true) :
    isDelimiter c = false := by
  by_contra hc
  simp only [isDelimiter, Bool.not_eq_false, Bool.or_eq_true, decide_eq_true_eq] at hc
  rcases hc with ((rfl | rfl) | rfl) | rfl <;> exact absurd h (by decide)

theorem isWord_of_parse {name : String} {s : Symbol} (h : Symbol.parse name = .ok s) :
    IsWord s.name.toList := by
  obtain ⟨rfl, ⟨c, hc, -⟩, hall⟩ := Timeline.parse_eq_ok_iff.1 h
  refine ⟨fun hnil => ?_, fun c hc => isDelimiter_of_isSymbolChar (hall c hc)⟩
  rw [show name.toList = [] from hnil] at hc
  cases hc

theorem Symbol.eq_of_name {s t : Symbol} (h : s.name = t.name) : s = t := congrArg Symbol.mk h

theorem Op.isWord (op : Op) : IsWord op.text.toList :=
  isWord_of_all (by cases op <;> rfl) (by cases op <;> rfl)

theorem Op.text_injective : Function.Injective Op.text := by
  intro a b h
  have hread : ∀ op : Op, Op.ofText? op.text = some op := by
    intro op
    cases op <;> decide
  simpa [hread] using congrArg Op.ofText? h

theorem Numeral.toList_text (n : Numeral) : n.text.toList = Nat.toDigits 10 n.value.toNat :=
  String.toList_ofList

theorem Numeral.isWord (n : Numeral) : IsWord n.text.toList := by
  rw [n.toList_text]
  exact ⟨Nat.toDigits_ne_nil, fun c hc => isDelimiter_of_isSymbolChar
    (isSymbolChar_of_isDigit (Timeline.isDigit_of_mem_toDigits hc))⟩

theorem Numeral.text_injective : Function.Injective Numeral.text := by
  intro m n h
  have hdigits := congrArg String.toList h
  rw [m.toList_text, n.toList_text] at hdigits
  cases m
  cases n
  cases UInt64.toNat_inj.1 (Timeline.toDigits_injective hdigits)
  rfl

/-! ## Terms -/

namespace Term

/-- Arguments as they are written, each after a blank. -/
def argumentChars (args : List Term) : List Char := args.flatMap fun t => ' ' :: t.text.toList

mutual

theorem toList_appendText (acc : String) :
    ∀ t : Term, (appendText acc t).toList = acc.toList ++ t.text.toList
  | .symbol s | .numeral n | .binary digits | .hex digits | .bool true | .bool false => by
      simp [text, appendText]
  | .app op indices args => by
      simp [text, appendText, toList_appendArgs _ args]

theorem toList_appendArgs (acc : String) :
    ∀ args : List Term, (appendArgs acc args).toList = acc.toList ++ argumentChars args
  | [] => by simp [appendArgs, argumentChars]
  | a :: rest => by
      rw [appendArgs, toList_appendArgs _ rest, toList_appendText _ a]
      simp [argumentChars]

end

theorem toList_text_app (op : Op) (indices : List Numeral) (args : List Term) :
    (text (.app op indices args)).toList =
      '(' :: (headText op indices).toList ++ argumentChars args ++ [')'] := by
  simp [text, appendText, toList_appendArgs]

/-- Indices are written like arguments that are numerals. -/
theorem toList_headText_of_ne_nil {indices : List Numeral} (op : Op) (h : indices ≠ []) :
    (headText op indices).toList =
      ['(', '_', ' '] ++ op.text.toList ++ argumentChars (indices.map .numeral) ++ [')'] := by
  have hempty : indices.isEmpty = false := by simpa using h
  simp [headText, hempty, argumentChars, String.toList_join, List.flatMap_map, text, appendText]

/-- The term that a word is the text of. -/
def ofWord (w : List Char) : Term :=
  if w.head? = some '#' then
    if w[1]? = some 'b' then .binary (.ofList (w.drop 2)) else .hex (.ofList (w.drop 2))
  else if w.head?.any Char.isDigit then .numeral ⟨(Nat.ofDigitChars 10 w 0).toUInt64⟩
  else if w = "true".toList then .bool true
  else if w = "false".toList then .bool false
  else .symbol ⟨.ofList w⟩

/-- A term is a word that stands for it, or an application to such terms. -/
inductive Written : Term → Prop where
  | word {t : Term} (isWord : IsWord t.text.toList) (read : ofWord t.text.toList = t) : Written t
  | app (op : Op) (indices : List Numeral) {args : List Term} (written : ∀ a ∈ args, Written a) :
      Written (.app op indices args)

theorem written_symbol {name : String} {s : Symbol} (h : Symbol.parse name = .ok s)
    (htrue : name ≠ "true") (hfalse : name ≠ "false") : Written (.symbol s) := by
  have hword := isWord_of_parse h
  obtain ⟨rfl, ⟨c, hc, hdigit⟩, hall⟩ := Timeline.parse_eq_ok_iff.1 h
  have htext : text (.symbol ⟨name⟩) = name := by simp [text, appendText]
  refine .word (by rwa [htext]) ?_
  have hsharp : c ≠ '#' := by
    rintro rfl
    exact absurd (hall '#' (List.mem_of_head? hc)) (by decide)
  rw [htext, ofWord, hc, if_neg (by simpa using hsharp), if_neg (by simp [hdigit]),
    if_neg (mt String.toList_inj.1 htrue), if_neg (mt String.toList_inj.1 hfalse),
    String.ofList_toList]

theorem written_numeral (n : Numeral) : Written (.numeral n) := by
  have htext : text (.numeral n) = n.text := by simp [text, appendText]
  have hword := n.isWord
  refine .word (by rwa [htext]) ?_
  rw [n.toList_text] at hword
  obtain ⟨c, rest, hdigits⟩ := List.exists_cons_of_ne_nil hword.ne_nil
  have hc : c.isDigit = true := Timeline.isDigit_of_mem_toDigits (hdigits ▸ List.mem_cons_self)
  have hsharp : c ≠ '#' := by
    rintro rfl
    exact absurd hc (by decide)
  rw [htext, n.toList_text, ofWord, if_neg (by simpa [hdigits] using hsharp),
    if_pos (by simpa [hdigits] using hc), Nat.ofDigitChars_ten_toDigits]
  simp

theorem written_bool (value : Bool) : Written (.bool value) := by
  refine .word (isWord_of_all ?_ ?_) ?_
  · cases value <;> rfl
  · cases value <;> rfl
  · cases value <;> simp [ofWord, text, appendText]

/-- A constant is its digits with a sharp and a letter before them. -/
theorem written_constant {t : Term} {letter : Char} {digits : String}
    (htext : t.text.toList = '#' :: letter :: digits.toList)
    (hletter : isDelimiter letter = false)
    (h : ∀ c ∈ digits.toList, Symbol.isSymbolChar c = true)
    (read : ofWord ('#' :: letter :: digits.toList) = t) : Written t := by
  refine .word ?_ (by rw [htext, read])
  rw [htext]
  refine ⟨List.cons_ne_nil _ _, fun c hc => ?_⟩
  rw [List.mem_cons, List.mem_cons] at hc
  rcases hc with rfl | rfl | hc
  · decide
  · exact hletter
  · exact isDelimiter_of_isSymbolChar (h c hc)

theorem written_binary {digits : String} (h : ∀ c ∈ digits.toList, Symbol.isSymbolChar c = true) :
    Written (.binary digits) :=
  written_constant (by simp [text, appendText]) (by decide : isDelimiter 'b' = false) h
    (by simp [ofWord])

theorem written_hex {digits : String} (h : ∀ c ∈ digits.toList, Symbol.isSymbolChar c = true) :
    Written (.hex digits) :=
  written_constant (by simp [text, appendText]) (by decide : isDelimiter 'x' = false) h
    (by simp [ofWord])

/-! ### Reading terms back -/

/-- In front of a delimiter, no other term begins in the same way. -/
def Readable (t : Term) : Prop :=
  ∀ {u : Term}, Written u → ∀ {xs ys : List Char}, Delimited xs → Delimited ys →
    t.text.toList ++ xs = u.text.toList ++ ys → t = u ∧ xs = ys

theorem delimited_argumentChars (args : List Term) (xs : List Char) :
    Delimited (argumentChars args ++ ')' :: xs) := by
  cases args with
  | nil => exact delimited_cons _ (by decide)
  | cons a rest => exact delimited_cons _ (by decide)

theorem readable_word {t : Term} (isWord : IsWord t.text.toList)
    (read : ofWord t.text.toList = t) : Readable t := by
  intro u hu xs ys hxs hys h
  cases hu with
  | word isWord' read' =>
    obtain ⟨htext, hrest⟩ := isWord.append_inj isWord' hxs hys h
    exact ⟨by rw [← read, htext, read'], hrest⟩
  | app op indices =>
    rw [toList_text_app] at h
    exact (isWord.append_ne_open h).elim

theorem argumentChars_append_inj {as bs : List Term} (ha : ∀ a ∈ as, Readable a)
    (hb : ∀ b ∈ bs, Written b) {xs ys : List Char}
    (h : argumentChars as ++ ')' :: xs = argumentChars bs ++ ')' :: ys) : as = bs ∧ xs = ys := by
  induction as generalizing bs with
  | nil =>
    cases bs with
    | nil => exact ⟨rfl, (List.cons.inj h).2⟩
    | cons b bs => exact absurd (List.cons.inj h).1 (by decide)
  | cons a as ih =>
    cases bs with
    | nil => exact absurd (List.cons.inj h).1 (by decide)
    | cons b bs =>
      simp only [argumentChars, List.flatMap_cons, List.cons_append, List.append_assoc,
        List.cons.injEq, true_and] at h
      obtain ⟨rfl, hrest⟩ := ha a List.mem_cons_self (hb b List.mem_cons_self)
        (delimited_argumentChars as xs) (delimited_argumentChars bs ys) h
      obtain ⟨rfl, hxs⟩ := ih (fun a ha' => ha a (List.mem_cons_of_mem _ ha'))
        (fun b hb' => hb b (List.mem_cons_of_mem _ hb')) hrest
      exact ⟨rfl, hxs⟩

theorem readable_numeral (n : Numeral) : Readable (.numeral n) := by
  cases written_numeral n with
  | word isWord read => exact readable_word isWord read

/-- Operators and indices can be told from the head of an application. -/
theorem headText_append_inj {op op' : Op} {is js : List Numeral} {xs ys : List Char}
    (hxs : Delimited xs) (hys : Delimited ys)
    (h : (headText op is).toList ++ xs = (headText op' js).toList ++ ys) :
    op = op' ∧ is = js ∧ xs = ys := by
  by_cases his : is = [] <;> by_cases hjs : js = []
  · subst his hjs
    obtain ⟨hop, hrest⟩ := op.isWord.append_inj op'.isWord hxs hys h
    exact ⟨Op.text_injective (String.toList_inj.1 hop), rfl, hrest⟩
  · subst his
    rw [toList_headText_of_ne_nil op' hjs] at h
    exact (op.isWord.append_ne_open h).elim
  · subst hjs
    rw [toList_headText_of_ne_nil op his] at h
    exact (op'.isWord.append_ne_open h.symm).elim
  · rw [toList_headText_of_ne_nil op his, toList_headText_of_ne_nil op' hjs] at h
    simp only [List.append_assoc, List.append_cancel_left_eq, List.singleton_append] at h
    obtain ⟨hop, hrest⟩ := op.isWord.append_inj op'.isWord (delimited_argumentChars _ xs)
      (delimited_argumentChars _ ys) h
    obtain ⟨hindices, hrest⟩ := argumentChars_append_inj (by simp [readable_numeral])
      (by simp [written_numeral]) hrest
    exact ⟨Op.text_injective (String.toList_inj.1 hop),
      (List.map_inj_right fun _ _ h => Term.numeral.inj h).1 hindices, hrest⟩

theorem readable_app (op : Op) (indices : List Numeral) {args : List Term}
    (readable : ∀ a ∈ args, Readable a) : Readable (.app op indices args) := by
  intro u hu xs ys hxs hys h
  cases hu with
  | word isWord _ =>
    rw [toList_text_app] at h
    exact (isWord.append_ne_open h.symm).elim
  | @app op' indices' args' written =>
    rw [toList_text_app, toList_text_app] at h
    simp only [List.cons_append, List.append_assoc, List.cons.injEq, true_and,
      List.nil_append] at h
    obtain ⟨rfl, rfl, hargs⟩ := headText_append_inj (delimited_argumentChars args xs)
      (delimited_argumentChars args' ys) h
    obtain ⟨rfl, hrest⟩ := argumentChars_append_inj readable written hargs
    exact ⟨rfl, hrest⟩

theorem Written.readable {t : Term} (h : Written t) : Readable t := by
  induction h with
  | word isWord read => exact readable_word isWord read
  | app op indices _ ih => exact readable_app op indices ih

/-! ### Constructed terms -/

/-- Terms as the constructors make them, of symbols that are not spelled like a truth value. -/
inductive Built : Term → Prop where
  | symbol {name : String} {s : Symbol} (parse : Symbol.parse name = .ok s)
      (not_true : name ≠ "true") (not_false : name ≠ "false") : Built (.symbol s)
  | numeral (n : Numeral) : Built (.numeral n)
  | binary {digits : String} {t : Term} (parse : parseBinary digits = .ok t) : Built t
  | hex {digits : String} {t : Term} (parse : parseHex digits = .ok t) : Built t
  | bits {value : UInt64} {width : Int} {t : Term} (bits : Term.bits value width = .ok t) : Built t
  | bool (value : Bool) : Built (.bool value)
  | app {op : Op} {indices : List Numeral} {args : List (Option Term)} {t : Term}
      (built : ∀ a, some a ∈ args → Built a) (apply : Term.apply op indices args = .ok t) : Built t

theorem isSymbolChar_of_digitValue? {c : Char} (h : (Text.digitValue? c).isSome = true) :
    Symbol.isSymbolChar c = true := by
  simp only [Symbol.isSymbolChar, Bool.or_eq_true, Bool.and_eq_true, decide_eq_true_eq]
  unfold Text.digitValue? at h
  split_ifs at h with hdecimal hlower hupper
  · exact .inl (.inr hdecimal)
  · exact .inl (.inl (.inl ⟨hlower.1, Char.le_trans hlower.2 (by decide)⟩))
  · exact .inl (.inl (.inr ⟨hupper.1, Char.le_trans hupper.2 (by decide)⟩))
  · cases h

/-- A constant of digits that may stand in symbols. -/
def IsConstant (t : Term) : Prop :=
  ∃ digits : String, (t = .binary digits ∨ t = .hex digits) ∧
    ∀ c ∈ digits.toList, Symbol.isSymbolChar c = true

theorem isConstant_of_parseBinary {digits : String} {t : Term} (h : parseBinary digits = .ok t) :
    t.IsConstant := by
  unfold parseBinary at h
  split_ifs at h with hempty hall
  cases h
  refine ⟨digits, .inl rfl, fun c hc => ?_⟩
  have hbit := List.all_eq_true.1 hall c hc
  rw [Bool.or_eq_true, decide_eq_true_eq, decide_eq_true_eq] at hbit
  rcases hbit with rfl | rfl <;> decide

theorem isConstant_of_parseHex {digits : String} {t : Term} (h : parseHex digits = .ok t) :
    t.IsConstant := by
  unfold parseHex at h
  split_ifs at h with hempty hall
  cases h
  exact ⟨digits, .inr rfl,
    fun c hc => isSymbolChar_of_digitValue? (List.all_eq_true.1 hall c hc)⟩

theorem isConstant_word (width value : Nat) : (word width value).IsConstant := by
  have hdigits {base : Nat} (hpos : 0 < base) (hle : base ≤ 16) (w : Nat) :
      ∀ c ∈ (Text.fixedWidth base w value).toList, Symbol.isSymbolChar c = true := by
    have hdigit (d : Nat) (hd : d < base) : Symbol.isSymbolChar (Nat.digitChar d) = true :=
      isSymbolChar_of_digitValue? (by rw [Text.digitValue?_digitChar (by omega)]; rfl)
    rw [Text.fixedWidth, String.toList_ofList]
    exact Text.forall_mem_lowDigits hpos hdigit (by simp)
  unfold word
  split_ifs
  · exact ⟨_, .inr rfl, hdigits (by decide) (by decide) _⟩
  · exact ⟨_, .inl rfl, hdigits (by decide) (by decide) _⟩

theorem isConstant_of_bits {value : UInt64} {width : Int} {t : Term}
    (h : Term.bits value width = .ok t) : t.IsConstant := by
  unfold Term.bits at h
  dsimp only at h
  split_ifs at h
  cases h
  exact isConstant_word _ _

theorem IsConstant.written {t : Term} (h : t.IsConstant) : Written t := by
  obtain ⟨digits, rfl | rfl, hall⟩ := h
  · exact written_binary hall
  · exact written_hex hall

theorem present_eq_ok {op : String} {i : Nat} {args : List (Option Term)} {ts : List Term}
    (h : present op i args = .ok ts) : args = ts.map some := by
  induction args generalizing i ts with
  | nil =>
    cases h
    rfl
  | cons a rest ih =>
    cases a with
    | none => cases h
    | some t =>
      cases hrest : present op (i + 1) rest with
      | error e =>
        rw [present, hrest] at h
        cases h
      | ok us =>
        rw [present, hrest] at h
        cases h
        rw [ih hrest]
        rfl

theorem apply_eq_ok {op : Op} {indices : List Numeral} {args : List (Option Term)} {t : Term}
    (h : apply op indices args = .ok t) : ∃ ts, args = ts.map some ∧ t = .app op indices ts := by
  unfold apply at h
  split_ifs at h
  cases hpresent : present op.text 0 args with
  | error e =>
    rw [hpresent] at h
    cases h
  | ok ts =>
    refine ⟨ts, present_eq_ok hpresent, ?_⟩
    rw [hpresent] at h
    dsimp only [bind, Except.bind] at h
    split at h
    · split_ifs at h
      cases h
      rfl
    · cases h
      rfl

theorem Built.written {t : Term} (h : t.Built) : Written t := by
  induction h with
  | symbol parse not_true not_false => exact written_symbol parse not_true not_false
  | numeral n => exact written_numeral n
  | binary parse => exact (isConstant_of_parseBinary parse).written
  | hex parse => exact (isConstant_of_parseHex parse).written
  | bits bits => exact (isConstant_of_bits bits).written
  | bool value => exact written_bool value
  | app built apply ih =>
    obtain ⟨ts, rfl, rfl⟩ := apply_eq_ok apply
    exact .app _ _ fun a ha => ih a (List.mem_map_of_mem ha)

theorem text_injective {t u : Term} (ht : t.Built) (hu : u.Built) (h : t.text = u.text) : t = u :=
  (ht.written.readable hu.written delimited_nil delimited_nil (by rw [h])).1

theorem newline_notMem_argumentChars {args : List Term} (h : ∀ a ∈ args, '\n' ∉ a.text.toList) :
    '\n' ∉ argumentChars args := by
  simp only [argumentChars, List.mem_flatMap, List.mem_cons, not_exists, not_and, not_or]
  exact fun a ha => ⟨by decide, h a ha⟩

theorem Written.newline_notMem {t : Term} (h : Written t) : '\n' ∉ t.text.toList := by
  induction h with
  | word isWord _ => exact isWord.newline_notMem
  | app op indices _ ih =>
    have hop := op.isWord.newline_notMem
    have hargs := newline_notMem_argumentChars ih
    rw [toList_text_app]
    by_cases hindices : indices = []
    · subst hindices
      simp [headText, hop, hargs]
    · have hnumerals : '\n' ∉ argumentChars (indices.map .numeral) := newline_notMem_argumentChars
        (by simp [text, appendText, fun n : Numeral => n.isWord.newline_notMem])
      rw [toList_headText_of_ne_nil op hindices]
      simp [hop, hnumerals, hargs]

end Term

/-! ## Commands -/

namespace Command

/-- Commands as the constructors make them. -/
inductive Built : Command → Prop where
  | bits {name : String} {symbol : Symbol} {width : Int} {c : Command}
      (parse : Symbol.parse name = .ok symbol) (bits : bits? symbol width = .ok c) : Built c
  | array {name : String} {symbol : Symbol} {address data : Int} {c : Command}
      (parse : Symbol.parse name = .ok symbol) (array : array? symbol address data = .ok c) :
      Built c
  | assert {t : Option Term} {c : Command} (built : ∀ u, t = some u → u.Built)
      (assert : assert? t = .ok c) : Built c
  | logic {name : String} {c : Command} (logic : logic? name = .ok c) : Built c
  | checkSat : Built .checkSat
  | exit : Built .exit
  | note (text : String) : Built (note text)

/-- What the constructors make sure of. -/
inductive Written : Command → Prop where
  | declareBits {symbol : Symbol} (width : Numeral) (isWord : IsWord symbol.name.toList) :
      Written (.declareBits symbol width)
  | declareArray {symbol : Symbol} (address data : Numeral) (isWord : IsWord symbol.name.toList) :
      Written (.declareArray symbol address data)
  | assert {t : Term} (written : t.Written) : Written (.assert t)
  | logic {symbol : Symbol} (isWord : IsWord symbol.name.toList) : Written (.logic symbol)
  | checkSat : Written .checkSat
  | exit : Written .exit
  | comment {text : String} (newline : '\n' ∉ text.toList) : Written (.comment text)

theorem bits?_eq_ok {symbol : Symbol} {width : Int} {c : Command}
    (h : bits? symbol width = .ok c) : ∃ n, c = .declareBits symbol n := by
  unfold bits? at h
  split_ifs at h
  cases h
  exact ⟨_, rfl⟩

theorem array?_eq_ok {symbol : Symbol} {address data : Int} {c : Command}
    (h : array? symbol address data = .ok c) : ∃ m n, c = .declareArray symbol m n := by
  unfold array? at h
  split_ifs at h
  cases h
  exact ⟨_, _, rfl⟩

theorem assert?_eq_ok {t : Option Term} {c : Command} (h : assert? t = .ok c) :
    ∃ u, t = some u ∧ c = .assert u := by
  cases t with
  | none => cases h
  | some u =>
    cases h
    exact ⟨u, rfl, rfl⟩

theorem logic?_eq_ok {name : String} {c : Command} (h : logic? name = .ok c) :
    ∃ s, Symbol.parse name = .ok s ∧ c = .logic s := by
  unfold logic? at h
  cases hparse : Symbol.parse name with
  | error e =>
    rw [hparse] at h
    cases h
  | ok s =>
    rw [hparse] at h
    cases h
    exact ⟨s, rfl, rfl⟩

theorem exists_note (text : String) : ∃ s : String, note text = .comment s ∧ '\n' ∉ s.toList := by
  refine ⟨_, rfl, ?_⟩
  rw [String.toList_ofList, List.mem_map, not_exists]
  rintro c ⟨-, hc⟩
  split_ifs at hc with hnewline
  · cases hc
  · exact hnewline hc

theorem Built.written {c : Command} (h : c.Built) : c.Written := by
  cases h with
  | bits parse bits =>
    obtain ⟨n, rfl⟩ := bits?_eq_ok bits
    exact .declareBits n (isWord_of_parse parse)
  | array parse array =>
    obtain ⟨m, n, rfl⟩ := array?_eq_ok array
    exact .declareArray m n (isWord_of_parse parse)
  | assert built assert =>
    obtain ⟨u, rfl, rfl⟩ := assert?_eq_ok assert
    exact .assert (built u rfl).written
  | logic logic =>
    obtain ⟨s, hparse, rfl⟩ := logic?_eq_ok logic
    exact .logic (isWord_of_parse hparse)
  | checkSat => exact .checkSat
  | exit => exact .exit
  | note text =>
    obtain ⟨s, hnote, hs⟩ := exists_note text
    exact hnote ▸ .comment hs

/-- The parts that the text of a command is put together from. -/
def parts : Command → List String
  | .declareBits s width => ["(declare-fun ", s.name, " () (_ BitVec ", width.text, "))"]
  | .declareArray s address data =>
      ["(declare-fun ", s.name, " () (Array (_ BitVec ", address.text, ") (_ BitVec ", data.text,
        ")))"]
  | .assert t => ["(assert ", t.text, ")"]
  | .logic s => ["(set-logic ", s.name, ")"]
  | .checkSat => ["(check-sat)"]
  | .exit => ["(exit)"]
  | .comment t => ["; ", t]

def chars (c : Command) : List Char := c.parts.flatMap String.toList

theorem toList_appendText (acc : String) (c : Command) :
    (appendText acc c).toList = acc.toList ++ c.chars := by
  cases c <;> simp [appendText, chars, parts, Term.toList_appendText]

theorem toList_text (c : Command) : c.text.toList = c.chars := by
  simp [text, toList_appendText]

theorem Written.newline_notMem {c : Command} (h : c.Written) : '\n' ∉ c.chars := by
  have hnumeral : ∀ n : Numeral, '\n' ∉ n.text.toList := fun n => n.isWord.newline_notMem
  cases h with
  | declareBits width isWord => simp [chars, parts, isWord.newline_notMem, hnumeral]
  | declareArray address data isWord => simp [chars, parts, isWord.newline_notMem, hnumeral]
  | assert written => simp [chars, parts, written.newline_notMem]
  | logic isWord => simp [chars, parts, isWord.newline_notMem]
  | checkSat => simp [chars, parts]
  | exit => simp [chars, parts]
  | comment newline => simp [chars, parts, newline]

/-- Words after the same part are the same if the parts after them begin with delimiters. -/
theorem word_of_parts {v w part x y : String} {xs ys : List String} (hv : IsWord v.toList)
    (hw : IsWord w.toList) (hx : x.toList.head?.any isDelimiter = true)
    (hy : y.toList.head?.any isDelimiter = true)
    (h : (part :: v :: x :: xs).flatMap String.toList =
      (part :: w :: y :: ys).flatMap String.toList) :
    v = w ∧ (x :: xs).flatMap String.toList = (y :: ys).flatMap String.toList := by
  have hdelimited : ∀ {s : String} (rest : List String), s.toList.head?.any isDelimiter = true →
      Delimited ((s :: rest).flatMap String.toList) := by
    intro s rest hs
    rw [List.flatMap_cons]
    cases hlist : s.toList with
    | nil => simp [hlist] at hs
    | cons c cs => exact delimited_cons _ (by simpa [hlist] using hs)
  obtain ⟨hword, hrest⟩ := hv.append_inj hw (hdelimited xs hx) (hdelimited ys hy)
    (List.append_cancel_left h)
  exact ⟨String.toList_inj.1 hword, hrest⟩

/-- The second letter of a text tells the kind of command, but for the two declarations, which
differ after the symbol. -/
theorem Written.chars_injective {c d : Command} (hc : c.Written) (hd : d.Written)
    (hc' : c.isComment = false) (hd' : d.isComment = false) (h : c.chars = d.chars) : c = d := by
  cases hc with
  | declareBits width isWord =>
    cases hd with
    | declareBits width' isWord' =>
      obtain ⟨hname, hsort⟩ := word_of_parts isWord isWord' rfl rfl h
      obtain ⟨hwidth, -⟩ := word_of_parts width.isWord width'.isWord rfl rfl hsort
      rw [Symbol.eq_of_name hname, Numeral.text_injective hwidth]
    | declareArray address data isWord' =>
      obtain ⟨-, hsort⟩ := word_of_parts isWord isWord' rfl rfl h
      simp at hsort
    | comment => cases hd'
    | _ => simp [chars, parts] at h
  | declareArray address data isWord =>
    cases hd with
    | declareBits width isWord' =>
      obtain ⟨-, hsort⟩ := word_of_parts isWord isWord' rfl rfl h
      simp at hsort
    | declareArray address' data' isWord' =>
      obtain ⟨hname, hsort⟩ := word_of_parts isWord isWord' rfl rfl h
      obtain ⟨haddress, hsort⟩ := word_of_parts address.isWord address'.isWord rfl rfl hsort
      obtain ⟨hdata, -⟩ := word_of_parts data.isWord data'.isWord rfl rfl hsort
      rw [Symbol.eq_of_name hname, Numeral.text_injective haddress, Numeral.text_injective hdata]
    | comment => cases hd'
    | _ => simp [chars, parts] at h
  | assert written =>
    cases hd with
    | assert written' =>
      have htext := by simpa [chars, parts] using h
      rw [(written.readable written' delimited_nil delimited_nil (by rw [htext])).1]
    | comment => cases hd'
    | _ => simp [chars, parts] at h
  | logic isWord =>
    cases hd with
    | logic isWord' =>
      have hname := by simpa [chars, parts] using h
      rw [Symbol.eq_of_name (String.toList_inj.1 hname)]
    | comment => cases hd'
    | _ => simp [chars, parts] at h
  | checkSat =>
    cases hd with
    | checkSat => rfl
    | comment => cases hd'
    | _ => simp [chars, parts] at h
  | exit =>
    cases hd with
    | exit => rfl
    | comment => cases hd'
    | _ => simp [chars, parts] at h
  | comment => cases hc'

end Command

/-! ## Formulas -/

namespace Formula

/-- Formulas of constructed commands. -/
def Built (f : Formula) : Prop := ∀ c ∈ f, c.Built

theorem toList_write (f : Formula) : f.write.toList = f.flatMap fun c => c.chars ++ ['\n'] := by
  have hfold : ∀ acc : String,
      (f.foldl (fun acc c => Command.appendText acc c ++ "\n") acc).toList =
        acc.toList ++ f.flatMap fun c => c.chars ++ ['\n'] := by
    induction f with
    | nil => simp
    | cons c rest ih =>
      intro acc
      rw [List.foldl_cons, ih]
      simp [Command.toList_appendText]
  simpa [write] using hfold ""

theorem splitOn_write {f : Formula} (h : ∀ c ∈ f, c.Written) :
    f.write.toList.splitOn '\n' = f.map Command.chars ++ [[]] := by
  rw [toList_write]
  induction f with
  | nil => rfl
  | cons c rest ih =>
    rw [List.flatMap_cons, List.append_assoc, List.singleton_append,
      List.splitOn_append_cons_self_of_not_mem (h c List.mem_cons_self).newline_notMem,
      ih fun c hc => h c (List.mem_cons_of_mem _ hc)]
    rfl

/-- The texts of the commands are the lines of what is written. -/
theorem split_write {f : Formula} (h : ∀ c ∈ f, c.Written) :
    (f.write.split '\n').toList.map String.Slice.copy = f.lines ++ [""] := by
  rw [String.toList_split_char, splitOn_write h, List.map_append, List.map_map]
  refine congrArg (· ++ [""]) (List.map_congr_left fun c _ => ?_)
  rw [Function.comp_apply, ← c.toList_text, String.ofList_toList]

/-- Without comments, the lines tell the commands. -/
theorem eq_of_map_chars_eq {f g : Formula} (hf : ∀ c ∈ f, c.Written ∧ c.isComment = false)
    (hg : ∀ c ∈ g, c.Written ∧ c.isComment = false)
    (h : f.map Command.chars = g.map Command.chars) : f = g := by
  induction f generalizing g with
  | nil => exact (List.map_eq_nil_iff.1 h.symm).symm
  | cons c rest ih =>
    cases g with
    | nil => cases h
    | cons d rest' =>
      obtain ⟨hchars, hrest⟩ := List.cons.inj h
      obtain ⟨hc, hc'⟩ := hf c List.mem_cons_self
      obtain ⟨hd, hd'⟩ := hg d List.mem_cons_self
      rw [hc.chars_injective hd hc' hd' hchars, ih (fun c hc => hf c (List.mem_cons_of_mem _ hc))
        (fun d hd => hg d (List.mem_cons_of_mem _ hd)) hrest]

theorem Built.of_mem_withoutComments {f : Formula} (h : f.Built) :
    ∀ c ∈ f.withoutComments, c.Written ∧ c.isComment = false := by
  intro c hc
  obtain ⟨hmem, hcomment⟩ := List.mem_filter.1 hc
  exact ⟨(h c hmem).written, by simpa using hcomment⟩

/-- The bytes that are hashed for a digest tell the formula up to its comments, a text tells the
term, and what is written has the texts of the commands as its lines, each of them on one line. -/
theorem write_unambiguous :
    (∀ f g : Formula, f.Built → g.Built →
      f.withoutComments.write.toUTF8 = g.withoutComments.write.toUTF8 →
      f.withoutComments = g.withoutComments) ∧
    (∀ t u : Term, t.Built → u.Built → t.text = u.text → t = u) ∧
    (∀ f : Formula, f.Built → (∀ c ∈ f, '\n' ∉ c.text.toList) ∧
      (f.write.split '\n').toList.map String.Slice.copy = f.lines ++ [""]) := by
  refine ⟨fun f g hf hg h => ?_, fun t u ht hu h => Term.text_injective ht hu h,
    fun f hf => ⟨fun c hc => ?_, split_write fun c hc => (hf c hc).written⟩⟩
  · have hf := hf.of_mem_withoutComments
    have hg := hg.of_mem_withoutComments
    have hwrite : f.withoutComments.write = g.withoutComments.write := String.toByteArray_inj.1 h
    have hlines := splitOn_write fun c hc => (hf c hc).1
    rw [hwrite, splitOn_write fun c hc => (hg c hc).1] at hlines
    exact eq_of_map_chars_eq hf hg (List.append_cancel_right hlines.symm)
  · rw [c.toList_text]
    exact (hf c hc).written.newline_notMem

/-- Comments may stand anywhere, and a constant may come from its digits or from its value. -/
theorem write_unambiguous_comments :
    let t : Term := .app .eq [] [.symbol ⟨"x"⟩, .hex "2a"]
    let f : Formula := [.note "all\nbits", .declareBits ⟨"x"⟩ ⟨8⟩, .assert t]
    let g : Formula := [.declareBits ⟨"x"⟩ ⟨8⟩, .note "the answer", .assert t]
    f.withoutComments = g.withoutComments ∧ Term.hex "2a" = Term.word 8 42 ∧
      (f.write.split '\n').toList.map String.Slice.copy =
        ["; all bits", "(declare-fun x () (_ BitVec 8))", "(assert (= x #x2a))", ""] := by
  intro t f g
  have hx : Symbol.parse "x" = .ok ⟨"x"⟩ := by decide
  have hhex : (Term.hex "2a").Built := .hex (rfl : Term.parseHex "2a" = .ok (.hex "2a"))
  have hdeclare : Command.Built (.declareBits ⟨"x"⟩ ⟨8⟩) :=
    .bits hx (by rfl : Command.bits? _ 8 = _)
  have hterm : t.Built := by
    have happly : Term.apply .eq [] [some (.symbol ⟨"x"⟩), some (.hex "2a")] = .ok t := rfl
    refine .app (fun a ha => ?_) happly
    simp only [List.mem_cons, Option.some.injEq, List.not_mem_nil, or_false] at ha
    rcases ha with rfl | rfl
    · exact .symbol hx (by decide) (by decide)
    · exact hhex
  have hassert : Command.Built (.assert t) := .assert (fun u hu => Option.some.inj hu ▸ hterm) rfl
  have hf : f.Built := by simp [f, Formula.Built, hdeclare, hassert, Command.Built.note]
  have hg : g.Built := by simp [g, Formula.Built, hdeclare, hassert, Command.Built.note]
  refine ⟨write_unambiguous.1 f g hf hg rfl, write_unambiguous.2.1 _ _ hhex
    (.bits (rfl : Term.bits 42 8 = .ok (.word 8 42))) rfl, ?_⟩
  rw [(write_unambiguous.2.2 f hf).2]
  decide

end Formula

end CycleCheck
