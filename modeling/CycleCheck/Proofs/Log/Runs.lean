import CycleCheck.Log
import Mathlib.Algebra.Group.Int.Defs
import Mathlib.Algebra.Group.Nat.Defs
import Mathlib.Data.List.DropRight
import Mathlib.Data.List.Induction
import Mathlib.Data.List.SplitBy

/-!
What a log holds. The messages that were permitted since the log was cleared fall into runs of equal
ones, and the log has the entries of the last runs, as many as it may keep. An entry tells how long
its whole run is, also when the run goes on after older entries were dropped.
-/

namespace CycleCheck

/-- A tag and a detail. -/
abbrev Message := String × String

/-- A call on a log. -/
inductive LogCall where
  | log (permission : Option Permission) (tag : String) (detail : Datum)
  | logf (permission : Option Permission) (tag pattern : String) (values : List Datum)
  | clear

namespace LogCall

/-- Messages have no line feeds. -/
def message (tag detail : String) : Message :=
  (Log.withoutLineFeeds tag, Log.withoutLineFeeds detail)

/-- The messages since the log was cleared, after a call. -/
def gather (ms : List Message) : LogCall → List Message
  | .log permission tag detail =>
      if permission = some .allow then ms ++ [message tag (Log.detailText detail)] else ms
  | .logf permission tag pattern values =>
      if permission = some .allow then
        ms ++ [message tag (Text.Pattern.format pattern (Datum.args values))]
      else ms
  | .clear => []

def messages (calls : List LogCall) : List Message := calls.foldl gather []

theorem messages_concat (calls : List LogCall) (c : LogCall) :
    messages (calls ++ [c]) = gather (messages calls) c := by
  rw [messages, List.foldl_append]
  rfl

end LogCall

/-! ## Runs -/

/-- The longest runs of equal messages that follow one another, in order. -/
def runs (ms : List Message) : List (List Message) := ms.splitBy (· == ·)

variable {ms run : List Message} {m : Message}

theorem runs_concat_of_ne (h : ∀ m' ∈ ms.getLast?, m' ≠ m) :
    runs (ms ++ [m]) = runs ms ++ [[m]] :=
  List.splitBy_append fun m' hm' y hy => by
    obtain rfl : m = y := Option.some.inj hy
    exact beq_eq_false_iff_ne.2 (h m' hm')

/-- A run is one message some times. -/
theorem exists_replicate_of_mem_runs (h : run ∈ runs ms) :
    ∃ n m, run = List.replicate (n + 1) m := by
  have hne : run ≠ [] := List.ne_nil_of_mem_splitBy h
  obtain ⟨m, rest, rfl⟩ := List.exists_cons_of_ne_nil hne
  have hchain : (m :: rest).IsChain (· = ·) := by simpa using List.isChain_of_mem_splitBy h
  have hrest := List.isChain_cons_eq_iff_eq_replicate.1 hchain
  exact ⟨rest.length, m, by rw [List.replicate_succ, ← hrest]⟩

/-- A message that is the last one again makes the last run longer. -/
theorem runs_concat_of_eq {rs : List (List Message)} {n : Nat}
    (h : runs ms = rs ++ [List.replicate (n + 1) m]) :
    runs (ms ++ [m]) = rs ++ [List.replicate (n + 2) m] := by
  obtain ⟨hflatten, hne, hequal, hchain⟩ := List.splitBy_eq_iff.1 h
  rw [List.isChain_append] at hchain
  refine List.splitBy_eq_iff.2 ⟨?flatten, ?nonempty, ?equal, ?maximal⟩
  case flatten =>
    simp [hflatten, List.replicate_succ']
  case nonempty =>
    simpa [List.replicate_succ] using hne
  case equal =>
    intro run hrun
    rcases List.mem_append.1 hrun with hrun | hrun
    · exact hequal run (List.mem_append_left _ hrun)
    · rw [List.mem_singleton.1 hrun]
      exact List.isChain_replicate_of_rel _ (beq_self_eq_true m)
  case maximal =>
    -- the run before it ends with another message, as it did
    rw [List.isChain_append]
    refine ⟨hchain.1, .singleton _, fun x hx y hy => ?_⟩
    obtain ⟨hx', _, hdiffer⟩ := hchain.2.2 x hx _ rfl
    obtain rfl : List.replicate (n + 2) m = y := Option.some.inj hy
    exact ⟨hx', by simp, by simpa using hdiffer⟩

/-! ## Entries -/

namespace LogEntry

def message (e : LogEntry) : Message := (e.tag, e.detail)

/-- The entry of a message that came some more times. -/
def of (m : Message) (repeated : Nat) : LogEntry := ⟨m.1, m.2, repeated⟩

/-- The entry of a run. -/
def ofRun (run : List Message) : LogEntry := of (run.headD ("", "")) (run.length - 1)

/-- A message is counted with the last entry if it is the same, and has an entry of its own
otherwise. -/
def count (es : List LogEntry) (m : Message) : List LogEntry :=
  match es.getLast? with
  | some e =>
      if e.message = m then es.dropLast ++ [{ e with repeated := e.repeated + 1 }]
      else es ++ [of m 0]
  | none => es ++ [of m 0]

theorem ofRun_replicate (n : Nat) (m : Message) : ofRun (List.replicate (n + 1) m) = of m n := by
  simp [ofRun, List.replicate_succ]

theorem message_of (m : Message) (n : Nat) : (of m n).message = m := rfl

variable {es : List LogEntry} {e : LogEntry}

theorem count_nil (m : Message) : count [] m = [of m 0] := rfl

theorem count_of_eq (h : e.message = m) :
    count (es ++ [e]) m = es ++ [{ e with repeated := e.repeated + 1 }] := by
  rw [count, List.getLast?_concat]
  simp only [if_pos h, List.dropLast_concat]

theorem count_of_ne (h : e.message ≠ m) : count (es ++ [e]) m = es ++ [e] ++ [of m 0] := by
  rw [count, List.getLast?_concat]
  simp only [if_neg h]

/-- The text tells how long the run is, if it is longer than one message. -/
theorem text_of (m : Message) (n : Nat) : (of m n).text =
    m.1 ++ ": " ++ m.2 ++
      (if 1 < n + 1 then " (repeat x" ++ Text.decimal (n + 1) ++ ")" else "") ++ "\n" := by
  simp [text, of]

/-! ## The last entries -/

theorem rtake_rtake {α : Type} (l : List α) (i j : Nat) :
    (l.rtake j).rtake i = l.rtake (min i j) := by
  rw [List.rtake_eq_reverse_take_reverse, List.rtake_eq_reverse_take_reverse l,
    List.rtake_eq_reverse_take_reverse, List.reverse_reverse, List.take_take]

/-- Only the last entries matter for the last entries after one more message. -/
theorem rtake_count_rtake (limit : Nat) (es : List LogEntry) (m : Message) :
    (count (es.rtake limit) m).rtake limit = (count es m).rtake limit := by
  cases limit with
  | zero => simp
  | succ k =>
    obtain rfl | ⟨es, e, rfl⟩ := List.eq_nil_or_concat' es
    · rw [List.rtake_nil]
    · have hlast : (es ++ [e]).rtake (k + 1) = es.rtake k ++ [e] := List.rtake_concat_succ es k e
      by_cases h : e.message = m
      · rw [hlast, count_of_eq h, count_of_eq h, List.rtake_concat_succ, List.rtake_concat_succ,
          rtake_rtake, min_self]
      · rw [hlast, count_of_ne h, ← hlast, count_of_ne h,
          List.rtake_concat_succ ((es ++ [e]).rtake (k + 1)), List.rtake_concat_succ (es ++ [e]),
          rtake_rtake, min_eq_left (Nat.le_succ k)]

end LogEntry

/-- The entries of all runs. -/
def entriesOf (ms : List Message) : List LogEntry := (runs ms).map LogEntry.ofRun

theorem entriesOf_concat (ms : List Message) (m : Message) :
    entriesOf (ms ++ [m]) = LogEntry.count (entriesOf ms) m := by
  obtain hnone | ⟨rs, run, hruns⟩ := List.eq_nil_or_concat' (runs ms)
  · obtain rfl : ms = [] := List.splitBy_eq_nil.1 hnone
    rfl
  · have hmem : run ∈ runs ms := by simp [hruns]
    obtain ⟨n, m', rfl⟩ := exists_replicate_of_mem_runs hmem
    have hentries : entriesOf ms = rs.map LogEntry.ofRun ++ [LogEntry.of m' n] := by
      simp [entriesOf, hruns, LogEntry.ofRun_replicate]
    rw [hentries]
    by_cases h : m' = m
    · subst h
      rw [entriesOf, runs_concat_of_eq hruns, LogEntry.count_of_eq (LogEntry.message_of ..)]
      simp [LogEntry.ofRun_replicate, LogEntry.of]
    · have hlast : ms.getLast? = some m' := by
        rw [← List.flatten_splitBy (· == ·) ms, ← runs, hruns]
        simp [List.replicate_succ']
      rw [entriesOf, runs_concat_of_ne (by simpa [hlast] using h), List.map_append, ← entriesOf,
        hentries, LogEntry.count_of_ne (e := LogEntry.of m' n) h]
      rfl

/-! ## Logs -/

namespace Log

def perform (l : Log) : LogCall → Log
  | .log permission tag detail => l.log permission tag detail
  | .logf permission tag pattern values => l.logf permission tag pattern values
  | .clear => l.clear

/-- A log after calls from the beginning. -/
def after (limit : Nat) (calls : List LogCall) : Log := calls.foldl perform { limit }

theorem after_concat (limit : Nat) (calls : List LogCall) (c : LogCall) :
    after limit (calls ++ [c]) = (after limit calls).perform c := by
  rw [after, List.foldl_append]
  rfl

variable {l : Log} {limit : Nat}

/-- A log has the last entries of the runs of messages. -/
structure Holds (limit : Nat) (ms : List Message) (l : Log) : Prop where
  bound : l.limit = limit
  entries : l.entries.toList = (entriesOf ms).rtake limit

/-- Dropping entries from the front leaves the last ones. -/
theorem toList_trim (es : Array LogEntry) (limit : Nat) :
    (if es.size > limit then es.extract (es.size - limit) es.size else es).toList =
      es.toList.rtake limit := by
  rw [List.rtake, Array.length_toList]
  split_ifs with h
  · rw [Array.toList_extract, List.extract_eq_take_drop, List.take_of_length_le (by simp)]
  · rw [Nat.sub_eq_zero_of_le (Nat.le_of_not_lt h), List.drop_zero]

theorem toList_add (l : Log) (tag detail : String) : (l.add tag detail).entries.toList =
    (LogEntry.count l.entries.toList (LogCall.message tag detail)).rtake l.limit := by
  rw [Log.add]
  simp only [toList_trim]
  congr 1
  rw [LogEntry.count, Array.getLast?_toList]
  cases hlast : l.entries.back? with
  | none => simp [LogEntry.of, LogCall.message]
  | some e =>
    have hsame : (e.tag = withoutLineFeeds tag ∧ e.detail = withoutLineFeeds detail) ↔
        e.message = LogCall.message tag detail := Prod.mk.injEq .. ▸ Iff.rfl
    by_cases h : e.message = LogCall.message tag detail
    · simp only [hsame, h, if_true]
      simp
    · simp only [hsame, h, if_false]
      simp [LogEntry.of, LogCall.message]

theorem Holds.add (h : Holds limit ms l) (tag detail : String) :
    Holds limit (ms ++ [LogCall.message tag detail]) (l.add tag detail) where
  bound := h.bound
  entries := by
    rw [toList_add, h.bound, h.entries, LogEntry.rtake_count_rtake, entriesOf_concat]

/-- What one call keeps. -/
theorem Holds.perform (h : Holds limit ms l) (c : LogCall) :
    Holds limit (c.gather ms) (l.perform c) := by
  cases c with
  | log permission tag detail =>
    rw [LogCall.gather, Log.perform, log]
    split_ifs
    · exact h.add tag _
    · exact h
  | logf permission tag pattern values =>
    rw [LogCall.gather, Log.perform, logf]
    split_ifs
    · exact h.add tag _
    · exact h
  | clear => exact ⟨h.bound, (List.rtake_nil limit).symm⟩

/-- What a log has after calls, by induction on them. -/
theorem holds_after (limit : Nat) (calls : List LogCall) :
    Holds limit (LogCall.messages calls) (after limit calls) := by
  induction calls using List.reverseRecOn with
  | nil => exact ⟨rfl, (List.rtake_nil limit).symm⟩
  | append_singleton calls c ih =>
    rw [LogCall.messages_concat, after_concat]
    exact ih.perform c

/-! ## Writing the last entries -/

/-- Dropping all but the last entries, or more than there are. -/
theorem drop_eq_rtake {α : Type} {as : List α} {k : Nat} {n : Int}
    (h : (k : Int) = as.length - n ∨ k = 0 ∧ as.length < n) :
    as.drop k = as.rtake (min n.toNat as.length) := by
  rw [List.rtake]
  obtain hk | ⟨rfl, hn⟩ := h
  · by_cases hneg : n < 0
    · rw [List.drop_eq_nil_of_le (by omega), List.drop_eq_nil_of_le (by omega)]
    · congr 1
      omega
  · congr 1
    omega

/-- The last entries are written, unless the place of the first one does not fit a signed word of 64
bits: then the program is stopped. -/
theorem tail_eq {n : Int} (hsize : l.entries.size < 2 ^ 63) (hlow : -2 ^ 63 ≤ n)
    (hhigh : n < 2 ^ 63) : l.tail n =
      if (l.entries.size : Int) - n < 2 ^ 63 then
        .ok (textOf (l.entries.toList.rtake (min n.toNat l.entries.size)))
      else .error .outOfRange := by
  have hword : (Int64.ofNat l.entries.size).toInt = l.entries.size := Int64.toInt_ofNat_of_lt hsize
  have hnumber : (Int64.ofInt n).toInt = n := Int64.toInt_ofInt_of_le hlow hhigh
  have hmore : Int64.ofInt n > Int64.ofNat l.entries.size ↔ (l.entries.size : Int) < n := by
    rw [gt_iff_lt, Int64.lt_iff_toInt_lt, hnumber, hword]
  rw [← Array.length_toList]
  by_cases hn : (l.entries.size : Int) < n
  · simp only [tail, if_pos (hmore.2 hn), Int64.sub_self]
    have hfirst : Int64.toNatClampNeg 0 = 0 := rfl
    rw [if_neg (by decide), if_pos (by simp; omega), hfirst, drop_eq_rtake (.inr ⟨rfl, by simpa⟩)]
  · have hfirst : (Int64.ofNat l.entries.size - Int64.ofInt n).toInt =
        (l.entries.size - n : Int).bmod (2 ^ 64) := by
      rw [Int64.toInt_sub, hword, hnumber]
    simp only [tail, if_neg (mt hmore.1 hn)]
    simp only [Int64.lt_iff_toInt_lt, Int64.toNatClampNeg, Int64.toInt_zero, hfirst,
      Array.length_toList]
    by_cases hfits : (l.entries.size : Int) - n < 2 ^ 63
    · rw [Int.bmod_eq_of_le (by omega) (by omega), if_neg (by omega), if_pos hfits,
        drop_eq_rtake (n := n) (.inl (by simp; omega)), Array.length_toList]
    · -- the difference wraps around to a negative one
      have hwrap : (l.entries.size - n : Int).bmod (2 ^ 64) = l.entries.size - n - 2 ^ 64 := by
        rw [Int.bmod_def]
        omega
      rw [hwrap, if_pos (by omega), if_neg hfits]

/-- The entries of runs that follow one another differ. -/
theorem isChain_entriesOf (ms : List Message) :
    (entriesOf ms).IsChain fun e f => e.message ≠ f.message := by
  rw [entriesOf, List.isChain_map]
  refine (List.isChain_getLast_head_splitBy (· == ·) ms).imp_of_mem_imp fun a b ha hb hdiffer => ?_
  obtain ⟨n, m, rfl⟩ := exists_replicate_of_mem_runs ha
  obtain ⟨k, m', rfl⟩ := exists_replicate_of_mem_runs hb
  obtain ⟨_, _, hdiffer⟩ := hdiffer
  rw [LogEntry.ofRun_replicate, LogEntry.ofRun_replicate, LogEntry.message_of, LogEntry.message_of]
  simpa using hdiffer

/-- A log holds the last entries of the longest runs of equal messages, as many as it may keep, each
with the full length of its run; neighbours differ. Of these it writes the last ones it is asked
for, none for a negative number, unless the place of the first one does not fit a signed word of 64
bits: then it writes nothing and the program is stopped. -/
theorem keeps_last_runs (limit : Nat) (hlimit : limit < 2 ^ 63) (calls : List LogCall) :
    let l := after limit calls
    let all := runs (LogCall.messages calls)
    l.entries.toList = (all.map LogEntry.ofRun).rtake limit ∧
      l.entries.size = min limit all.length ∧
      (l.entries.toList.IsChain fun e f => e.message ≠ f.message) ∧
      (∀ run ∈ all, ∃ n tag detail, run = List.replicate n (tag, detail) ∧
        (LogEntry.ofRun run).text = tag ++ ": " ++ detail ++
          (if 1 < n then " (repeat x" ++ Text.decimal n ++ ")" else "") ++ "\n") ∧
      l.text = textOf l.entries.toList ∧
      ∀ n : Int, -2 ^ 63 ≤ n → n < 2 ^ 63 → l.tail n =
        if (l.entries.size : Int) - n < 2 ^ 63 then
          .ok (textOf (l.entries.toList.rtake (min n.toNat l.entries.size)))
        else .error .outOfRange := by
  intro l all
  have hentries : l.entries.toList = (all.map LogEntry.ofRun).rtake limit :=
    (holds_after limit calls).entries
  have hsize : l.entries.size = min limit all.length := by
    rw [← Array.length_toList, hentries, List.rtake]
    simp
    omega
  refine ⟨hentries, hsize, ?_, fun run hrun => ?_, rfl, fun n hlow hhigh => ?_⟩
  · rw [hentries]
    exact (isChain_entriesOf _).drop _
  · obtain ⟨n, m, rfl⟩ := exists_replicate_of_mem_runs hrun
    exact ⟨n + 1, m.1, m.2, rfl, by rw [LogEntry.ofRun_replicate, LogEntry.text_of]⟩
  · exact tail_eq (by omega) hlow hhigh

/-- A message comes three times, once with a line feed and once more after one that was denied. Of
three runs the log of two entries has dropped the first. -/
theorem keeps_last_runs_two :
    let calls : List LogCall := [.log (some .allow) "x" (.text "1"),
      .log (some .allow) "a" (.int 7),
      .logf (some .allow) "a" "%d\n" [.int 7], .log none "z" (.text "2"),
      .log (some .allow) "a\n" (.text "7"), .log (some .allow) "c" (.text "d")]
    2 < 2 ^ 63 ∧ (after 2 calls).entries.size = 2 ∧
      (after 2 calls).text = "a: 7 (repeat x3)\nc: d\n" ∧
      (after 2 calls).tail 1 = .ok "c: d\n" := by
  intro calls
  obtain ⟨hentries, hsize, -, -, htext, htail⟩ := keeps_last_runs 2 (by decide) calls
  have hruns : runs (LogCall.messages calls) =
      [[("x", "1")], List.replicate 3 ("a", "7"), [("c", "d")]] := by
    rfl
  rw [hruns] at hentries hsize
  refine ⟨by decide, hsize, ?_, ?_⟩
  · rw [htext, hentries]
    rfl
  · rw [htail 1 (by decide) (by decide), hentries, hsize]
    rfl

/-- With the least 64-bit number there is nothing to write, and the program is stopped all the
same. -/
theorem tail_least : (after 4 [.log (some .allow) "a" (.text "b")]).tail (-2 ^ 63) =
    .error .outOfRange := by
  rfl

end Log

end CycleCheck
