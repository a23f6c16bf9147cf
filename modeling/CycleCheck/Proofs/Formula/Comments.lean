import CycleCheck.Proofs.Formula.Readability

/-!
Comments in what is written. A solver reads a text as tokens, and a comment goes from a semicolon
to the first line feed or carriage return. A comment has no line feed in it, so it is over at the
end of its line and leaves no token, unless there is a carriage return in it: then what stands
behind the first one is read like any other text.
-/

namespace CycleCheck

/-! ## Lexical rules -/

namespace Lexical

/-- What a text is made of. Words are numerals, constants, symbols and keywords, which their
spelling tells; string literals and quoted symbols are kept without their marks. -/
inductive Token where
  | opening
  | closing
  | word (w : List Char)
  | literal (w : List Char)
  | quoted (w : List Char)
deriving DecidableEq

/-- What a reader is in the middle of. -/
inductive Place where
  | between
  | word (w : List Char)
  | comment
  | literal (w : List Char)
  /-- after a mark inside a literal, which ends it unless a second mark follows -/
  | mark (w : List Char)
  | quoted (w : List Char)
deriving DecidableEq

def isBreak (c : Char) : Bool := c = '\n' || c = '\r'

def isBlank (c : Char) : Bool := isBreak c || c = ' ' || c = '\t'

/-- Whether a character ends a word. -/
def endsWord (c : Char) : Bool := isBlank c || "();\"|".toList.contains c

/-- Reads a character after the end of a token. -/
def fresh (c : Char) : List Token × Place :=
  if isBlank c then ([], .between)
  else if c = '(' then ([.opening], .between)
  else if c = ')' then ([.closing], .between)
  else if c = ';' then ([], .comment)
  else if c = '"' then ([], .literal [])
  else if c = '|' then ([], .quoted [])
  else ([], .word [c])

/-- Reads a character, with the tokens that end before or at it. -/
def step : Place → Char → List Token × Place
  | .between, c => fresh c
  | .word w, c =>
      if endsWord c then (.word w :: (fresh c).1, (fresh c).2) else ([], .word (w ++ [c]))
  | .comment, c => ([], if isBreak c then .between else .comment)
  | .literal w, c => ([], if c = '"' then .mark w else .literal (w ++ [c]))
  | .mark w, c =>
      if c = '"' then ([], .literal (w ++ [c])) else (.literal w :: (fresh c).1, (fresh c).2)
  | .quoted w, c => if c = '|' then ([.quoted w], .between) else ([], .quoted (w ++ [c]))

/-- Reads characters one after another. -/
def read : Place → List Char → List Token × Place
  | p, [] => ([], p)
  | p, c :: rest => ((step p c).1 ++ (read (step p c).2 rest).1, (read (step p c).2 rest).2)

/-- The token at the end of a text, where literals and quoted symbols must be over. -/
def finish : Place → Option (List Token)
  | .between | .comment => some []
  | .word w => some [.word w]
  | .mark w => some [.literal w]
  | .literal _ | .quoted _ => none

/-- The tokens of a text. -/
def tokens (text : String) : Option (List Token) :=
  (finish (read .between text.toList).2).map ((read .between text.toList).1 ++ ·)

theorem read_append (p : Place) (xs ys : List Char) : read p (xs ++ ys) =
    ((read p xs).1 ++ (read (read p xs).2 ys).1, (read (read p xs).2 ys).2) := by
  induction xs generalizing p with
  | nil => rfl
  | cons c rest ih => rw [List.cons_append, read, ih, read, List.append_assoc]

theorem read_append_of_eq {p q : Place} {xs : List Char} {ts : List Token}
    (h : read p xs = (ts, q)) (ys : List Char) :
    read p (xs ++ ys) = (ts ++ (read q ys).1, (read q ys).2) := by
  rw [read_append, h]

/-- A comment goes on as long as there is no break. -/
theorem read_comment {cs : List Char} (h : ∀ c ∈ cs, isBreak c = false) :
    read .comment cs = ([], .comment) := by
  induction cs with
  | nil => rfl
  | cons c rest ih =>
    obtain ⟨hc, hrest⟩ := List.forall_mem_cons.1 h
    simp [read, step, hc, ih hrest]

/-- A break ends a comment. -/
theorem read_comment_break {cs : List Char} {b : Char} (h : ∀ c ∈ cs, isBreak c = false)
    (hb : isBreak b = true) (rest : List Char) :
    read .comment (cs ++ b :: rest) = read .between rest := by
  rw [read_append_of_eq (read_comment h)]
  simp [read, step, hb]

/-- The characters that a comment, a literal or a quoted symbol starts with. -/
def isMark (c : Char) : Bool := c = ';' || c = '"' || c = '|'

/-- Text without comments, literals and quoted symbols. -/
def Unmarked (cs : List Char) : Prop := ∀ c ∈ cs, isMark c = false

instance (cs : List Char) : Decidable (Unmarked cs) :=
  decidable_of_iff (cs.all (!isMark ·) = true) (by simp [Unmarked])

@[simp] theorem unmarked_nil : Unmarked [] := nofun

@[simp] theorem unmarked_cons {c : Char} {cs : List Char} :
    Unmarked (c :: cs) ↔ isMark c = false ∧ Unmarked cs := List.forall_mem_cons

@[simp] theorem unmarked_append {xs ys : List Char} :
    Unmarked (xs ++ ys) ↔ Unmarked xs ∧ Unmarked ys := List.forall_mem_append

/-- Places from which a line feed leads on to the next token. -/
def Place.Plain : Place → Prop
  | .between | .word _ => True
  | _ => False

theorem fresh_plain {c : Char} (h : isMark c = false) : (fresh c).2.Plain := by
  unfold fresh
  split_ifs with _ _ _ hcomment hliteral hquoted
  · exact trivial
  · exact trivial
  · exact trivial
  · exact absurd h (by simp [isMark, hcomment])
  · exact absurd h (by simp [isMark, hliteral])
  · exact absurd h (by simp [isMark, hquoted])
  · exact trivial

theorem step_plain {p : Place} {c : Char} (hp : p.Plain) (h : isMark c = false) :
    (step p c).2.Plain := by
  cases p with
  | between => exact fresh_plain h
  | word w =>
    rw [step]
    split_ifs
    · exact fresh_plain h
    · exact trivial
  | _ => exact hp.elim

theorem read_plain {p : Place} {cs : List Char} (hp : p.Plain) (h : Unmarked cs) :
    (read p cs).2.Plain := by
  induction cs generalizing p with
  | nil => exact hp
  | cons c rest ih =>
    obtain ⟨hc, hrest⟩ := unmarked_cons.1 h
    exact ih (step_plain hp hc) hrest

theorem read_newline {p : Place} (h : p.Plain) : (read p ['\n']).2 = .between := by
  cases p with
  | between | word => rfl
  | _ => exact h.elim

/-- No token goes on behind the end of a line without comments, literals and quoted symbols. -/
theorem read_line {cs : List Char} (h : Unmarked cs) (rest : List Char) :
    read .between (cs ++ '\n' :: rest) =
      ((read .between (cs ++ ['\n'])).1 ++ (read .between rest).1, (read .between rest).2) := by
  have hend : (read .between (cs ++ ['\n'])).2 = .between := by
    rw [read_append]
    exact read_newline (read_plain (p := .between) trivial h)
  rw [List.append_cons, read_append, hend]

end Lexical

/-! ## Spelling -/

open Lexical

theorem isMark_of_isSymbolChar {c : Char} (h : Symbol.isSymbolChar c = true) :
    isMark c = false := by
  by_contra hc
  simp only [isMark, Bool.not_eq_false, Bool.or_eq_true, decide_eq_true_eq] at hc
  rcases hc with (rfl | rfl) | rfl <;> exact absurd h (by decide)

/-- Names of symbol characters, also those that are spelled like a truth value and the empty one. -/
def Symbol.Spelled (s : Symbol) : Prop := ∀ c ∈ s.name.toList, Symbol.isSymbolChar c = true

theorem Symbol.spelled_of_parse {name : String} {s : Symbol} (h : Symbol.parse name = .ok s) :
    s.Spelled := by
  obtain ⟨rfl, -, hall⟩ := Timeline.parse_eq_ok_iff.1 h
  exact hall

theorem Symbol.Spelled.unmarked {s : Symbol} (h : s.Spelled) : Unmarked s.name.toList :=
  fun c hc => isMark_of_isSymbolChar (h c hc)

theorem Numeral.unmarked (n : Numeral) : Unmarked n.text.toList := by
  rw [n.toList_text]
  exact fun c hc => isMark_of_isSymbolChar
    (isSymbolChar_of_isDigit (Timeline.isDigit_of_mem_toDigits hc))

theorem Op.unmarked (op : Op) : Unmarked op.text.toList := by
  cases op <;> decide

namespace Term

/-- Terms with symbols and digits of symbol characters. -/
inductive Spelled : Term → Prop where
  | symbol {s : Symbol} (name : s.Spelled) : Spelled (.symbol s)
  | numeral (n : Numeral) : Spelled (.numeral n)
  | constant {t : Term} (constant : t.IsConstant) : Spelled t
  | bool (value : Bool) : Spelled (.bool value)
  | app (op : Op) (indices : List Numeral) {args : List Term} (spelled : ∀ a ∈ args, Spelled a) :
      Spelled (.app op indices args)

theorem Built.spelled {t : Term} (h : t.Built) : t.Spelled := by
  induction h with
  | symbol parse _ _ => exact .symbol (Symbol.spelled_of_parse parse)
  | numeral n => exact .numeral n
  | binary parse => exact .constant (isConstant_of_parseBinary parse)
  | hex parse => exact .constant (isConstant_of_parseHex parse)
  | bits bits => exact .constant (isConstant_of_bits bits)
  | bool value => exact .bool value
  | app built apply ih =>
    obtain ⟨ts, rfl, rfl⟩ := apply_eq_ok apply
    exact .app _ _ fun a ha => ih a (List.mem_map_of_mem ha)

theorem IsConstant.unmarked {t : Term} (h : t.IsConstant) : Unmarked t.text.toList := by
  obtain ⟨digits, hdigits, hall⟩ := h
  have hunmarked : Unmarked digits.toList := fun c hc => isMark_of_isSymbolChar (hall c hc)
  rcases hdigits with rfl | rfl
  · simp [text, appendText, hunmarked, isMark]
  · simp [text, appendText, hunmarked, isMark]

theorem unmarked_argumentChars {args : List Term} (h : ∀ a ∈ args, Unmarked a.text.toList) :
    Unmarked (argumentChars args) := by
  intro c hc
  obtain ⟨a, ha, hc⟩ := List.mem_flatMap.1 hc
  rcases List.mem_cons.1 hc with rfl | hc
  · decide
  · exact h a ha c hc

theorem unmarked_headText (op : Op) (indices : List Numeral) :
    Unmarked (headText op indices).toList := by
  by_cases hindices : indices = []
  · subst hindices
    exact op.unmarked
  · have hnumerals : Unmarked (argumentChars (indices.map .numeral)) := unmarked_argumentChars
      (by simp [text, appendText, Numeral.unmarked])
    rw [toList_headText_of_ne_nil op hindices]
    simp [op.unmarked, hnumerals, isMark]

theorem Spelled.unmarked {t : Term} (h : t.Spelled) : Unmarked t.text.toList := by
  induction h with
  | symbol name => simpa [text, appendText] using name.unmarked
  | numeral n => simpa [text, appendText] using n.unmarked
  | constant constant => exact constant.unmarked
  | bool value => cases value <;> decide
  | app op indices _ ih =>
    rw [toList_text_app]
    simp [unmarked_headText, unmarked_argumentChars ih, isMark]

end Term

namespace Command

/-- Commands with symbols and terms of symbol characters, and comments without line feeds. -/
inductive Spelled : Command → Prop where
  | declareBits {symbol : Symbol} (width : Numeral) (name : symbol.Spelled) :
      Spelled (.declareBits symbol width)
  | declareArray {symbol : Symbol} (address data : Numeral) (name : symbol.Spelled) :
      Spelled (.declareArray symbol address data)
  | assert {t : Term} (term : t.Spelled) : Spelled (.assert t)
  | logic {symbol : Symbol} (name : symbol.Spelled) : Spelled (.logic symbol)
  | checkSat : Spelled .checkSat
  | exit : Spelled .exit
  | comment {text : String} (newline : '\n' ∉ text.toList) : Spelled (.comment text)

theorem Built.spelled {c : Command} (h : c.Built) : c.Spelled := by
  cases h with
  | bits parse bits =>
    obtain ⟨n, rfl⟩ := bits?_eq_ok bits
    exact .declareBits n (Symbol.spelled_of_parse parse)
  | array parse array =>
    obtain ⟨m, n, rfl⟩ := array?_eq_ok array
    exact .declareArray m n (Symbol.spelled_of_parse parse)
  | assert built assert =>
    obtain ⟨u, rfl, rfl⟩ := assert?_eq_ok assert
    exact .assert (built u rfl).spelled
  | logic logic =>
    obtain ⟨s, hparse, rfl⟩ := logic?_eq_ok logic
    exact .logic (Symbol.spelled_of_parse hparse)
  | checkSat => exact .checkSat
  | exit => exact .exit
  | note text =>
    obtain ⟨s, hnote, hs⟩ := exists_note text
    exact hnote ▸ .comment hs

theorem Spelled.unmarked {c : Command} (h : c.Spelled) (hcomment : c.isComment = false) :
    Unmarked c.chars := by
  cases h with
  | declareBits width name => simp [chars, parts, name.unmarked, width.unmarked, isMark]
  | declareArray address data name =>
    simp [chars, parts, name.unmarked, address.unmarked, data.unmarked, isMark]
  | assert term => simp [chars, parts, term.unmarked, isMark]
  | logic name => simp [chars, parts, name.unmarked, isMark]
  | checkSat | exit => simp [chars, parts, isMark]
  | comment => cases hcomment

end Command

/-! ## Formulas -/

namespace Formula

/-- Formulas of commands that are spelled so. -/
def Spelled (f : Formula) : Prop := ∀ c ∈ f, c.Spelled

/-- No comment has a carriage return in it. -/
def Unbroken (f : Formula) : Prop := ∀ text, .comment text ∈ f → '\r' ∉ text.toList

variable {f : Formula}

theorem Built.spelled (h : f.Built) : f.Spelled := fun c hc => (h c hc).spelled

theorem toList_write_cons (c : Command) (f : Formula) :
    (write (c :: f)).toList = c.chars ++ '\n' :: f.write.toList := by
  simp [toList_write]

theorem toList_write_append (f g : Formula) :
    (f ++ g).write.toList = f.write.toList ++ g.write.toList := by
  rw [toList_write, toList_write, toList_write, List.flatMap_append]

/-- A comment up to its first break is skipped. -/
theorem read_between_comment {cs : List Char} {b : Char} (h : ∀ c ∈ cs, isBreak c = false)
    (hb : isBreak b = true) (rest : List Char) :
    read .between ("; ".toList ++ (cs ++ b :: rest)) = read .between rest := by
  rw [read_append_of_eq (by decide : read .between "; ".toList = ([], .comment)),
    read_comment_break h hb]
  rfl

theorem isBreak_eq_false {text : String} (hfeed : '\n' ∉ text.toList)
    (hreturn : '\r' ∉ text.toList) : ∀ c ∈ text.toList, isBreak c = false := by
  intro c hc
  simp only [isBreak, Bool.or_eq_false_iff, decide_eq_false_iff_not]
  exact ⟨fun h => hfeed (h ▸ hc), fun h => hreturn (h ▸ hc)⟩

/-- Whatever follows, comments without breaks make no difference to what is read. -/
theorem read_write_append (hspelled : f.Spelled) (hunbroken : f.Unbroken) (rest : List Char) :
    read .between (f.write.toList ++ rest) =
      read .between (f.withoutComments.write.toList ++ rest) := by
  induction f with
  | nil => rfl
  | cons c f ih =>
    obtain ⟨hc, hf⟩ := List.forall_mem_cons.1 hspelled
    have ih := ih hf fun text htext => hunbroken text (List.mem_cons_of_mem _ htext)
    rw [toList_write_cons, List.append_assoc, List.cons_append]
    cases hcomment : c.isComment with
    | true =>
      have hskipped : withoutComments (c :: f) = withoutComments f := by
        simp [withoutComments, hcomment]
      cases hc with
      | @comment text hfeed =>
        have hreturn := hunbroken text List.mem_cons_self
        have hline : Command.chars (.comment text) = "; ".toList ++ text.toList := by
          simp [Command.chars, Command.parts]
        rw [hskipped, hline, List.append_assoc,
          read_between_comment (isBreak_eq_false hfeed hreturn) (by decide), ih]
      | _ => cases hcomment
    | false =>
      have hkept : withoutComments (c :: f) = c :: withoutComments f := by
        simp [withoutComments, hcomment]
      have hline := read_line (hc.unmarked hcomment)
      rw [hkept, toList_write_cons, List.append_assoc, List.cons_append,
        hline ((write f).toList ++ rest), ih, hline ((withoutComments f).write.toList ++ rest)]

/-- Without comments, all tokens are over at the end. -/
theorem read_withoutComments (h : f.Spelled) :
    (read .between f.withoutComments.write.toList).2 = .between := by
  have hlines : ∀ g : Formula, (∀ c ∈ g, Unmarked c.chars) →
      (read .between g.write.toList).2 = .between := by
    intro g hg
    induction g with
    | nil => rfl
    | cons c g ih =>
      obtain ⟨hc, hg⟩ := List.forall_mem_cons.1 hg
      rw [toList_write_cons, read_line hc]
      exact ih hg
  refine hlines _ fun c hc => ?_
  obtain ⟨hmem, hcomment⟩ := List.mem_filter.1 hc
  exact (h c hmem).unmarked (by simpa using hcomment)

theorem tokens_write (hspelled : f.Spelled) (hunbroken : f.Unbroken) :
    tokens f.write = tokens f.withoutComments.write ∧ (tokens f.withoutComments.write).isSome := by
  have hread := read_write_append hspelled hunbroken []
  rw [List.append_nil, List.append_nil] at hread
  refine ⟨by rw [tokens, hread, tokens], ?_⟩
  rw [tokens, read_withoutComments hspelled]
  rfl

/-- What stands behind the first carriage return of a comment is read. -/
theorem tokens_write_return (hspelled : f.Spelled) (hunbroken : f.Unbroken) {a : String}
    (hfeed : '\n' ∉ a.toList) (hreturn : '\r' ∉ a.toList) (b : String) (g : Formula) :
    tokens (f ++ .comment (a ++ "\r" ++ b) :: g).write =
      tokens (f.withoutComments.write ++ b ++ "\n" ++ g.write) := by
  have htext : (f ++ .comment (a ++ "\r" ++ b) :: g).write.toList = f.write.toList ++
      ("; ".toList ++ (a.toList ++ '\r' :: (b.toList ++ '\n' :: g.write.toList))) := by
    simp [toList_write_append, toList_write_cons, Command.chars, Command.parts]
  have hrest : (f.withoutComments.write ++ b ++ "\n" ++ g.write).toList =
      f.withoutComments.write.toList ++ (b.toList ++ '\n' :: g.write.toList) := by
    simp
  have hread : read .between (f ++ .comment (a ++ "\r" ++ b) :: g).write.toList =
      read .between (f.withoutComments.write ++ b ++ "\n" ++ g.write).toList := by
    rw [htext, hrest, read_write_append hspelled hunbroken, read_append,
      read_withoutComments hspelled,
      read_between_comment (isBreak_eq_false hfeed hreturn) (by decide),
      read_append _ f.withoutComments.write.toList, read_withoutComments hspelled]
  rw [tokens, hread, tokens]

/-- Every constructed formula is spelled so. If its comments have no carriage returns, it is read as
it is without its comments, and as any other such formula of which the same bytes are hashed. A
comment with a carriage return in it is read from there on, as if the rest was no comment. -/
theorem comments_inert (f : Formula) :
    (f.Built → f.Spelled) ∧
    (f.Spelled → f.Unbroken →
      (tokens f.write = tokens f.withoutComments.write ∧
        (tokens f.withoutComments.write).isSome) ∧
      (∀ g : Formula, g.Spelled → g.Unbroken →
        f.withoutComments.write.toUTF8 = g.withoutComments.write.toUTF8 →
        tokens f.write = tokens g.write) ∧
      ∀ (g : Formula) (a b : String), '\n' ∉ a.toList → '\r' ∉ a.toList →
        tokens (f ++ .comment (a ++ "\r" ++ b) :: g).write =
          tokens (f.withoutComments.write ++ b ++ "\n" ++ g.write)) := by
  refine ⟨Built.spelled, fun hspelled hunbroken => ⟨tokens_write hspelled hunbroken,
    fun g hg hg' h => ?_,
    fun g a b hfeed hreturn => tokens_write_return hspelled hunbroken hfeed hreturn b g⟩⟩
  calc tokens f.write = tokens f.withoutComments.write := (tokens_write hspelled hunbroken).1
    _ = tokens g.withoutComments.write := congrArg tokens (String.toByteArray_inj.1 h)
    _ = tokens g.write := (tokens_write hg hg').1.symm

/-- Semicolons, quotes and line feeds in a comment are not read. -/
theorem comments_inert_demo :
    let f : Formula := [.note "say \"x\n; (exit) |", .declareBits ⟨"x"⟩ ⟨8⟩, .checkSat]
    let g : Formula := [.declareBits ⟨"x"⟩ ⟨8⟩, .checkSat, .note "done"]
    tokens f.write = tokens f.withoutComments.write ∧ tokens f.write = tokens g.write ∧
      tokens (f ++ .comment ("a" ++ "\r" ++ "(exit)") :: g).write =
        tokens (f.withoutComments.write ++ "(exit)" ++ "\n" ++ g.write) := by
  intro f g
  have hdeclare : Command.Built (.declareBits ⟨"x"⟩ ⟨8⟩) :=
    .bits (by decide : Symbol.parse "x" = .ok ⟨"x"⟩) (by rfl : Command.bits? _ 8 = _)
  have hf : f.Built := by simp [f, Built, hdeclare, Command.Built.note, Command.Built.checkSat]
  have hg : g.Built := by simp [g, Built, hdeclare, Command.Built.note, Command.Built.checkSat]
  have hf' : f.Unbroken := by
    simp only [f, Unbroken, Command.note, List.mem_cons, Command.comment.injEq, reduceCtorEq,
      List.not_mem_nil, or_false, forall_eq]
    decide
  have hg' : g.Unbroken := by
    simp only [g, Unbroken, Command.note, List.mem_cons, Command.comment.injEq, reduceCtorEq,
      List.not_mem_nil, or_false, false_or, forall_eq]
    decide
  obtain ⟨hspelled, hread⟩ := comments_inert f
  obtain ⟨⟨hone, -⟩, hsame, hreturn⟩ := hread (hspelled hf) hf'
  exact ⟨hone, hsame g ((comments_inert g).1 hg) hg' (by decide),
    hreturn g "a" "(exit)" (by decide) (by decide)⟩

/-- A name with a carriage return in it, in a comment: the solver reads an assertion that the digest
does not tell about. -/
theorem comment_read_as_command :
    let f : Formula := [.note "x\r(assert false)", .checkSat]
    f.Built ∧ f.digest = f.withoutComments.digest ∧
      tokens f.write = some [.opening, .word "assert".toList, .word "false".toList, .closing,
        .opening, .word "check-sat".toList, .closing] ∧
      tokens f.withoutComments.write =
        some [.opening, .word "check-sat".toList, .closing] := by
  intro f
  have hf : f.Built := by simp [f, Built, Command.Built.note, Command.Built.checkSat]
  exact ⟨hf, rfl, by decide, by decide⟩

end Formula

end CycleCheck
