import CycleCheck.CommandLine.Modes
import CycleCheck.Proofs.CommandLine.Flags

/-!
How far the arguments of a command line are taken. The position never goes back, and what is left is
the end of the arguments: a sub-mode that is found takes the flags before it and its own argument,
the default sub-mode takes the flags alone, and help takes nothing. There is one exception. Where no
argument is left, the text that is looked for among the sub-modes is empty; a sub-mode without a
name is found there, an argument is taken that does not exist, and from then on nothing can be read.
-/

namespace CycleCheck

theorem Text.upper_eq_empty_iff {s : String} : Text.upper s = "" ↔ s = "" := by
  rw [Text.upper, ← String.toList_inj, String.toList_ofList, ← String.toList_inj]
  exact List.map_eq_nil_iff

namespace CommandLine

/-- A call on modes that have arguments. -/
inductive ModesCall where
  | newMode
  | addSubModes (names : List String)
  | addDefaultSubMode (name : String)
  | addFlag (f : Flag)
  | addHelp (text : String)
  | parse

/-- The names of sub-modes that a call adds. -/
def ModesCall.names : ModesCall → List String
  | .addSubModes names => names
  | .addDefaultSubMode name => [name]
  | _ => []

namespace Modes

/-- The modes after a call. A flag that is refused changes nothing. -/
def perform (md : Modes) : ModesCall → Modes
  | .newMode => md.newMode
  | .addSubModes names => md.addSubModes names
  | .addDefaultSubMode name => md.addDefaultSubMode name
  | .addFlag f =>
      match md.addFlag f with
      | .ok md' => md'
      | .error _ => md
  | .addHelp text => { md with additionalHelp := text }
  | .parse => md.parse.1

def performAll (md : Modes) (calls : List ModesCall) : Modes := calls.foldl perform md

variable {md after : Modes} {fs : FlagSet} {args rest : List String} {c : ModesCall}
  {calls : List ModesCall}

/-! ## Arguments that are left -/

theorem remaining_eq_ok_iff : md.remaining = .ok rest ↔
    ∃ taken, md.args = taken ++ rest ∧ md.position = taken.length := by
  rw [remaining]
  constructor
  · intro h
    split_ifs at h with hle
    cases h
    exact ⟨md.args.take md.position, (List.take_append_drop ..).symm, by simp [hle]⟩
  · rintro ⟨taken, hargs, hposition⟩
    rw [if_pos (by simp [hargs, hposition]), hargs, hposition, List.drop_left]

theorem exists_remaining (h : md.position ≤ md.args.length) : ∃ rest, md.remaining = .ok rest := by
  rw [remaining, if_pos h]
  exact ⟨_, rfl⟩

theorem remaining_of_lt (h : md.args.length < md.position) : md.remaining = .error .outOfRange := by
  rw [remaining, if_neg (Nat.not_le_of_lt h)]

theorem position_add_length_of_remaining (h : md.remaining = .ok rest) :
    md.position + rest.length = md.args.length := by
  obtain ⟨taken, hargs, hposition⟩ := remaining_eq_ok_iff.1 h
  rw [hargs, hposition, List.length_append]

theorem argument_of_ok (h : md.remaining = .ok rest) (i : Int) :
    md.argument i = .ok (if i < 0 then "" else rest.getD i.toNat "") := by
  rw [argument, h]
  rfl

theorem argument_of_error {e : ModesError} (h : md.remaining = .error e) (i : Int) :
    md.argument i = .error e := by
  rw [argument, h]
  rfl

/-- The modes after flags were taken. -/
def leave (md : Modes) (fs : FlagSet) (rest : List String) : Modes :=
  { md with parsed := true, flags := some fs, position := md.args.length - rest.length }

theorem remaining_leave (h : rest <:+ md.args) : (md.leave fs rest).remaining = .ok rest := by
  obtain ⟨taken, hargs⟩ := h
  refine remaining_eq_ok_iff.2 ⟨taken, hargs.symm, ?_⟩
  simp [leave, ← hargs]

/-- One more argument is taken. -/
theorem remaining_next {next : String} (h : md.remaining = .ok (next :: rest))
    (path : List String) : remaining { md with path, position := md.position + 1 } = .ok rest := by
  obtain ⟨taken, hargs, hposition⟩ := remaining_eq_ok_iff.1 h
  exact remaining_eq_ok_iff.2 ⟨taken ++ [next], by simp [hargs], by simp [hposition]⟩

/-! ## Sub-modes -/

theorem enter_of_nil (h : md.subModes = []) (next : String) : md.enter next = md := by
  rw [enter, h]

theorem enter_of_mem {next : String} (h : Text.upper next ∈ md.subModes) : md.enter next =
    { md with path := md.path ++ [Text.upper next], position := md.position + 1 } := by
  rw [enter]
  split
  · next hnil => simp [hnil] at h
  · rw [if_pos (List.contains_iff_mem.2 h)]

theorem enter_of_notMem {next first : String} {others : List String}
    (hfirst : md.subModes = first :: others) (h : Text.upper next ∉ md.subModes) :
    md.enter next = { md with path := md.path ++ [first] } := by
  rw [enter, hfirst]
  simp only
  rw [if_neg (by simpa [hfirst] using h)]

/-- A sub-mode changes the path, and the position by one argument or not. -/
theorem exists_enter_eq (md : Modes) (next : String) :
    ∃ path n, md.enter next = { md with path, position := md.position + n } := by
  rw [enter]
  split
  · exact ⟨md.path, 0, rfl⟩
  · split
    · exact ⟨_, 1, rfl⟩
    · exact ⟨_, 0, rfl⟩

/-! ## Parsing -/

theorem parse_of_none (hflags : md.flags = none) :
    md.parse = ({ md with parsed := true }, .error .noFlags) := by
  rw [parse]
  simp only [hflags]

theorem parse_of_error {e : ModesError} (hflags : md.flags = some fs)
    (h : md.remaining = .error e) : md.parse = ({ md with parsed := true }, .error e) := by
  have hremaining : remaining { md with parsed := true } = .error e := h
  rw [parse]
  simp only [hremaining]
  simp only [hflags]

/-- Help leaves the arguments as they are; otherwise those after the flags are left, and a sub-mode
is looked for if nothing is wrong. -/
theorem parse_of_ok (hflags : md.flags = some fs) (h : md.remaining = .ok args) :
    md.parse = match fs.parse args with
      | (fs', _, .help) =>
          ({ md with parsed := true, flags := some fs' }, .ok (.help (md.help fs'.help)))
      | (fs', rest, .failed e) => (md.leave fs' rest, .ok (.failed e))
      | (fs', rest, .done) => ((md.leave fs' rest).enter (rest.headD ""), .ok .proceed) := by
  have hremaining : remaining { md with parsed := true } = .ok args := h
  rw [parse]
  simp only [hremaining]
  simp only [hflags]
  obtain ⟨fs', rest, outcome⟩ := fs.parse args
  cases outcome <;> rfl

/-- Parsing changes flags, path and position, and the position never goes back. -/
theorem exists_parse_eq (md : Modes) : ∃ flags path n, (md.flags.isSome → flags.isSome) ∧
    md.parse.1 = { md with parsed := true, flags, path, position := md.position + n } := by
  cases hflags : md.flags with
  | none => exact ⟨md.flags, md.path, 0, by simp [hflags], by rw [parse_of_none hflags]; rfl⟩
  | some fs =>
    cases h : md.remaining with
    | error e =>
      exact ⟨md.flags, md.path, 0, by simp [hflags], by rw [parse_of_error hflags h]; rfl⟩
    | ok args =>
      have hleaves := fs.leaves_parse args
      rcases hflag : fs.parse args with ⟨fs', rest, outcome⟩
      rw [hflag] at hleaves
      rw [parse_of_ok hflags h, hflag]
      have hlength : rest.length ≤ args.length := hleaves.suffix.length_le
      have hposition := position_add_length_of_remaining h
      have hleave : md.leave fs' rest =
          { md with
            parsed := true
            flags := some fs'
            position := md.position + (args.length - rest.length) } := by
        rw [leave]
        congr 1
        omega
      cases outcome with
      | help => exact ⟨some fs', md.path, 0, by simp, rfl⟩
      | failed e => exact ⟨some fs', md.path, _, by simp, hleave⟩
      | done =>
        obtain ⟨path, n, henter⟩ := (md.leave fs' rest).exists_enter_eq (rest.headD "")
        refine ⟨some fs', path, (args.length - rest.length) + n, by simp, ?_⟩
        simp only [henter]
        rw [hleave]
        simp only [Nat.add_assoc]

/-- No argument is left after the flags, and there is a sub-mode without a name: it is found all the
same, and one more argument is taken than there are. -/
def StepsOver (md : Modes) : Prop :=
  "" ∈ md.subModes ∧ ∃ fs args fs', md.flags = some fs ∧ md.remaining = .ok args ∧
    fs.parse args = (fs', [], .done)

/-- What parsing leaves of some arguments, by its result. `kind` tells the flags, and thereby where
they end (`AfterFlags.unique`). -/
inductive Parsed (md : Modes) (kind : String → Option Bool) (args : List String) (after : Modes) :
    ParseResult → Prop
  /-- nothing is taken -/
  | help {text : String} (path : after.path = md.path) (left : after.remaining = .ok args) :
      Parsed md kind args after (.help text)
  | failed {e : FlagError} {rest : List String} (suffix : rest <:+ args)
      (path : after.path = md.path) (left : after.remaining = .ok rest) :
      Parsed md kind args after (.failed e)
  /-- there are no sub-modes, and the flags are taken -/
  | flags {rest : List String} (flags : AfterFlags kind args rest) (subModes : md.subModes = [])
      (path : after.path = md.path) (left : after.remaining = .ok rest) :
      Parsed md kind args after .proceed
  /-- the flags are taken, and the argument after them -/
  | found {next : String} {rest : List String} (flags : AfterFlags kind args (next :: rest))
      (subModes : Text.upper next ∈ md.subModes) (path : after.path = md.path ++ [Text.upper next])
      (left : after.remaining = .ok rest) : Parsed md kind args after .proceed
  /-- the flags are taken, and no sub-mode is found after them -/
  | default {first : String} {others rest : List String} (flags : AfterFlags kind args rest)
      (subModes : md.subModes = first :: others)
      (unknown : ∀ next ∈ rest.head?, Text.upper next ∉ md.subModes)
      (path : after.path = md.path ++ [first]) (left : after.remaining = .ok rest) :
      Parsed md kind args after .proceed

theorem Parsed.exists_remaining {kind : String → Option Bool} {r : ParseResult}
    (h : md.Parsed kind args after r) : ∃ rest, after.remaining = .ok rest := by
  cases h <;> exact ⟨_, ‹_›⟩

/-- Parsing answers wherever the arguments can be read, and takes what its result says. -/
theorem exists_parsed (hflags : md.flags = some fs) (h : md.remaining = .ok args) :
    ∃ r, md.parse.2 = .ok r ∧ (¬ md.StepsOver → md.Parsed fs.kind args md.parse.1 r) := by
  have hleaves := fs.leaves_parse args
  have hargs : args <:+ md.args := by
    obtain ⟨taken, htaken, -⟩ := remaining_eq_ok_iff.1 h
    exact ⟨taken, htaken.symm⟩
  rcases hflag : fs.parse args with ⟨fs', rest, outcome⟩
  rw [hflag] at hleaves
  rw [parse_of_ok hflags h, hflag]
  have hleft : (md.leave fs' rest).remaining = .ok rest :=
    remaining_leave (hleaves.suffix.trans hargs)
  cases outcome with
  | help => exact ⟨_, rfl, fun _ => .help rfl h⟩
  | failed e => exact ⟨_, rfl, fun _ => .failed hleaves.suffix rfl hleft⟩
  | done =>
    refine ⟨_, rfl, fun hnamed => ?_⟩
    have hafter : AfterFlags fs.kind args rest := hleaves.afterFlags rfl
    change Parsed md fs.kind args ((md.leave fs' rest).enter (rest.headD "")) .proceed
    cases hmodes : (md.leave fs' rest).subModes with
    | nil =>
      rw [enter_of_nil hmodes]
      exact .flags hafter hmodes rfl hleft
    | cons first others =>
      by_cases hfound : Text.upper (rest.headD "") ∈ (md.leave fs' rest).subModes
      · rw [enter_of_mem hfound]
        cases rest with
        | nil => exact absurd ⟨hfound, fs, args, fs', hflags, h, hflag⟩ hnamed
        | cons next rest => exact .found hafter hfound rfl (remaining_next hleft _)
      · rw [enter_of_notMem hmodes hfound]
        refine .default hafter hmodes (fun next hnext => ?_) rfl hleft
        rw [List.headD_eq_head?_getD, hnext] at hfound
        exact hfound

theorem position_of_stepsOver (h : md.StepsOver) : md.parse.1.position = md.args.length + 1 := by
  obtain ⟨hunnamed, fs, args, fs', hflags, hremaining, hflag⟩ := h
  rw [parse_of_ok hflags hremaining, hflag]
  have hfound : Text.upper "" ∈ (md.leave fs' []).subModes := hunnamed
  change ((md.leave fs' []).enter "").position = _
  rw [enter_of_mem hfound]
  rfl

/-! ## One call -/

theorem exists_addFlag_eq {f : Flag} (h : md.addFlag f = .ok after) :
    ∃ fs, after = { md with flags := some fs } := by
  rw [addFlag] at h
  split at h
  · cases h
  · split_ifs at h
    exact ⟨_, (Except.ok.inj h).symm⟩

/-- Calls other than parsing take nothing. -/
theorem perform_cases (md : Modes) (c : ModesCall) :
    c = .parse ∨ ∃ flags subModes additionalHelp parsed, (md.flags.isSome → flags.isSome) ∧
      md.perform c = { md with flags, subModes, additionalHelp, parsed } := by
  cases c with
  | newMode => exact .inr ⟨some {}, _, _, _, by simp, rfl⟩
  | addSubModes names => exact .inr ⟨md.flags, _, _, _, id, rfl⟩
  | addDefaultSubMode name => exact .inr ⟨md.flags, _, _, _, id, rfl⟩
  | addFlag f =>
    rw [perform]
    cases h : md.addFlag f with
    | error e => exact .inr ⟨md.flags, _, _, _, id, rfl⟩
    | ok after =>
      obtain ⟨fs, rfl⟩ := exists_addFlag_eq h
      exact .inr ⟨some fs, _, _, _, by simp, rfl⟩
  | addHelp text => exact .inr ⟨md.flags, _, _, _, id, rfl⟩
  | parse => exact .inl rfl

theorem position_le_perform (md : Modes) (c : ModesCall) :
    md.position ≤ (md.perform c).position := by
  obtain rfl | ⟨flags, subModes, additionalHelp, parsed, -, hperform⟩ := md.perform_cases c
  · obtain ⟨flags, path, n, -, hparse⟩ := md.exists_parse_eq
    rw [perform, hparse]
    exact Nat.le_add_right ..
  · exact Nat.le_of_eq (congrArg position hperform).symm

/-- Modes that were given arguments and have flags, of which there may be none. -/
structure Ready (args : List String) (md : Modes) : Prop where
  args_eq : md.args = args
  flags : md.flags.isSome

theorem ready_newArgs (md : Modes) (args : List String) : Ready args (md.newArgs args) := ⟨rfl, rfl⟩

theorem Ready.perform (h : Ready args md) (c : ModesCall) : Ready args (md.perform c) := by
  obtain rfl | ⟨flags, subModes, additionalHelp, parsed, hsome, hperform⟩ := md.perform_cases c
  · obtain ⟨flags, path, n, hsome, hparse⟩ := md.exists_parse_eq
    rw [Modes.perform, hparse]
    exact ⟨h.args_eq, hsome h.flags⟩
  · rw [hperform]
    exact ⟨h.args_eq, hsome h.flags⟩

/-- What one call keeps: as long as no argument is taken that does not exist, the position is within
the arguments. -/
theorem Ready.position_le (h : Ready args md) (hposition : md.position ≤ args.length)
    (hnamed : ¬ (c = .parse ∧ md.StepsOver)) : (md.perform c).position ≤ args.length := by
  obtain rfl | ⟨flags, subModes, additionalHelp, parsed, hsome, hperform⟩ := md.perform_cases c
  · obtain ⟨fs, hflags⟩ := Option.isSome_iff_exists.1 h.flags
    obtain ⟨before, hbefore⟩ := exists_remaining (h.args_eq ▸ hposition)
    obtain ⟨r, -, hparsed⟩ := exists_parsed hflags hbefore
    obtain ⟨left, hleft⟩ := (hparsed fun hover => hnamed ⟨rfl, hover⟩).exists_remaining
    have hargs : md.parse.1.args = args := (h.perform .parse).args_eq
    have hlength := position_add_length_of_remaining hleft
    rw [hargs] at hlength
    exact hlength ▸ Nat.le_add_right ..
  · rwa [hperform]

/-- Beyond the arguments, parsing is refused and takes nothing more. -/
theorem Ready.position_eq_of_lt (h : Ready args md) (hposition : args.length < md.position)
    (c : ModesCall) : (md.perform c).position = md.position := by
  obtain rfl | ⟨flags, subModes, additionalHelp, parsed, hsome, hperform⟩ := md.perform_cases c
  · obtain ⟨fs, hflags⟩ := Option.isSome_iff_exists.1 h.flags
    rw [Modes.perform, parse_of_error hflags (remaining_of_lt (h.args_eq ▸ hposition))]
  · rw [hperform]

/-! ## Many calls -/

/-- Some parsing among the calls takes an argument that does not exist. -/
def SteppedOver : Modes → List ModesCall → Prop
  | _, [] => False
  | md, c :: calls => (c = .parse ∧ md.StepsOver) ∨ SteppedOver (md.perform c) calls

theorem performAll_cons (md : Modes) (c : ModesCall) (calls : List ModesCall) :
    md.performAll (c :: calls) = (md.perform c).performAll calls := rfl

theorem position_le_performAll (md : Modes) (calls : List ModesCall) :
    md.position ≤ (md.performAll calls).position := by
  induction calls generalizing md with
  | nil => exact Nat.le_refl _
  | cons c calls ih => exact Nat.le_trans (md.position_le_perform c) (ih _)

theorem Ready.performAll (h : Ready args md) (calls : List ModesCall) :
    Ready args (md.performAll calls) := by
  induction calls generalizing md with
  | nil => exact h
  | cons c calls ih => exact ih (h.perform c)

theorem Ready.performAll_of_lt (h : Ready args md) (hposition : args.length < md.position)
    (calls : List ModesCall) : (md.performAll calls).position = md.position := by
  induction calls generalizing md with
  | nil => rfl
  | cons c calls ih =>
    have hnext := h.position_eq_of_lt hposition c
    rw [performAll_cons, ih (h.perform c) (hnext ▸ hposition), hnext]

/-- By induction on the calls: the position is within the arguments until one is taken that does not
exist, and right behind them from then on. -/
theorem Ready.position_performAll (h : Ready args md) (hposition : md.position ≤ args.length)
    (calls : List ModesCall) :
    (¬ md.SteppedOver calls ∧ (md.performAll calls).position ≤ args.length) ∨
      (md.SteppedOver calls ∧ (md.performAll calls).position = args.length + 1) := by
  induction calls generalizing md with
  | nil => exact .inl ⟨id, hposition⟩
  | cons c calls ih =>
    rw [performAll_cons, SteppedOver]
    by_cases hstep : c = .parse ∧ md.StepsOver
    · obtain ⟨rfl, hover⟩ := hstep
      have hnext : (md.perform .parse).position = args.length + 1 :=
        h.args_eq ▸ position_of_stepsOver hover
      refine .inr ⟨.inl ⟨rfl, hover⟩, ?_⟩
      rw [(h.perform .parse).performAll_of_lt (by omega), hnext]
    · simpa only [hstep, false_or] using ih (h.perform c) (h.position_le hposition hstep)

/-- A sub-mode has no name only if it was added so. -/
theorem unnamed_notMem_perform (h : "" ∉ md.subModes) (hc : "" ∉ c.names) :
    "" ∉ (md.perform c).subModes := by
  cases c with
  | newMode => exact List.not_mem_nil
  | addSubModes names =>
    simp only [perform, addSubModes, List.mem_append, List.mem_map, Text.upper_eq_empty_iff]
    rintro (hmem | ⟨name, hmem, rfl⟩)
    · exact h hmem
    · exact hc hmem
  | addDefaultSubMode name =>
    simp only [perform, addDefaultSubMode, List.mem_cons]
    rintro (hname | hmem)
    · exact hc (Text.upper_eq_empty_iff.1 hname.symm ▸ List.mem_singleton_self _)
    · exact h hmem
  | addFlag f =>
    rw [perform]
    cases hadd : md.addFlag f with
    | error e => exact h
    | ok after =>
      obtain ⟨fs, rfl⟩ := exists_addFlag_eq hadd
      exact h
  | addHelp text => exact h
  | parse =>
    obtain ⟨flags, path, n, -, hparse⟩ := md.exists_parse_eq
    rw [perform, hparse]
    exact h

theorem not_steppedOver (h : "" ∉ md.subModes) (hcalls : ∀ c ∈ calls, "" ∉ c.names) :
    ¬ md.SteppedOver calls ∧ "" ∉ (md.performAll calls).subModes := by
  induction calls generalizing md with
  | nil => exact ⟨id, h⟩
  | cons c calls ih =>
    obtain ⟨hc, hrest⟩ := List.forall_mem_cons.1 hcalls
    obtain ⟨hnever, hlast⟩ := ih (unnamed_notMem_perform h hc) hrest
    exact ⟨fun hover => hover.elim (fun hstep => h hstep.2.1) hnever, hlast⟩

/-- In any calls after modes were given arguments, the position never goes back. If all sub-modes
have names, no argument is taken that does not exist. As long as none is, the arguments that are
left are the end of those that were given, all of them can be read, and parsing answers and takes
what its result says: nothing for help, the flags alone for the default sub-mode, the flags and one
argument for a sub-mode that is found. Otherwise one more argument is taken than there are, and
nothing can be read or parsed any more. -/
theorem takes_arguments_in_order (md₀ : Modes) (args : List String) (calls : List ModesCall) :
    let start := md₀.newArgs args
    let md := start.performAll calls
    (∀ more, md.position ≤ (md.performAll more).position) ∧
    ((∀ c ∈ calls, "" ∉ c.names) → ¬ start.SteppedOver calls ∧ ¬ md.StepsOver) ∧
    (¬ start.SteppedOver calls → ∃ taken rest fs r,
      args = taken ++ rest ∧ md.position = taken.length ∧ md.remaining = .ok rest ∧
      (∀ i, md.argument i = .ok (if i < 0 then "" else rest.getD i.toNat "")) ∧
      md.flags = some fs ∧ md.parse.2 = .ok r ∧
      (¬ md.StepsOver → md.Parsed fs.kind rest md.parse.1 r)) ∧
    (start.SteppedOver calls →
      md.position = args.length + 1 ∧ md.remaining = .error .outOfRange ∧
      (∀ i, md.argument i = .error .outOfRange) ∧ md.parse.2 = .error .outOfRange) := by
  intro start md
  have hstart : Ready args start := md₀.ready_newArgs args
  have hready : Ready args md := hstart.performAll calls
  obtain ⟨fs, hflags⟩ := Option.isSome_iff_exists.1 hready.flags
  have hposition := hstart.position_performAll (Nat.zero_le _) calls
  refine ⟨md.position_le_performAll, fun hnames => ?_, fun hnever => ?_, fun hover => ?_⟩
  · have hfirst : "" ∉ start.subModes := List.not_mem_nil
    obtain ⟨hnever, hunnamed⟩ := not_steppedOver hfirst hnames
    exact ⟨hnever, fun hstep => hunnamed hstep.1⟩
  · obtain ⟨-, hle⟩ := hposition.resolve_right fun h => hnever h.1
    have hwithin : md.position ≤ md.args.length := hready.args_eq.symm ▸ hle
    obtain ⟨rest, hrest⟩ := exists_remaining hwithin
    obtain ⟨taken, hargs, htaken⟩ := remaining_eq_ok_iff.1 hrest
    obtain ⟨r, hr, hparsed⟩ := exists_parsed hflags hrest
    exact ⟨taken, rest, fs, r, hready.args_eq ▸ hargs, htaken, hrest, argument_of_ok hrest, hflags,
      hr, hparsed⟩
  · obtain ⟨-, heq⟩ := hposition.resolve_left fun h => h.1 hover
    have hnone : md.remaining = .error .outOfRange :=
      remaining_of_lt (by rw [hready.args_eq, heq]; exact Nat.lt_succ_self _)
    exact ⟨heq, hnone, argument_of_error hnone, by rw [parse_of_error hflags hnone]⟩

/-- A flag and a sub-mode are taken. The argument after them asks for help and stays where it is. -/
theorem takes_arguments_in_order_help :
    let start := newArgs {} ["-log", "emit", "-help"]
    let calls : List ModesCall := [.addFlag (.make "log" "echo log" (.bool false)),
      .addSubModes ["verify", "emit"], .parse, .newMode]
    let md := start.performAll calls
    (∀ c ∈ calls, "" ∉ c.names) ∧ ¬ start.SteppedOver calls ∧ md.path = ["EMIT"] ∧
      md.remaining = .ok ["-help"] ∧ md.argument 0 = .ok "-help" ∧ md.argument 1 = .ok "" ∧
      (∃ text, md.parse.2 = .ok (.help text)) ∧ md.parse.1.remaining = .ok ["-help"] := by
  intro start calls md
  let flagged : Modes :=
    { start with flags := some { flags := [.make "log" "echo log" (.bool false)] } }
  have hadd : start.addFlag (.make "log" "echo log" (.bool false)) = .ok flagged := by
    simp [start, flagged, addFlag, newArgs, newMode, Flag.make, FlagSet.find?]
  have hmd : md = (flagged.addSubModes ["verify", "emit"]).parse.1.newMode := by
    rw [show md = start.performAll calls from rfl, performAll_cons, perform, hadd]
    rfl
  have hpath : md.path = ["EMIT"] := by
    rw [hmd]
    rfl
  have hposition : md.position = 2 := by
    rw [hmd]
    rfl
  obtain ⟨text, hhelp⟩ : ∃ text, md.parse.2 = .ok (.help text) := by
    rw [hmd]
    exact ⟨_, rfl⟩
  obtain ⟨-, hnamed, hread, -⟩ :=
    takes_arguments_in_order {} ["-log", "emit", "-help"] calls
  have hnames : ∀ c ∈ calls, "" ∉ c.names := by simp [calls, ModesCall.names]
  obtain ⟨hnever, hstep⟩ := hnamed hnames
  obtain ⟨taken, rest, fs, r, hargs, htaken, hrest, hargument, -, hr, hparsed⟩ := hread hnever
  have hdrop := congrArg (List.drop taken.length) hargs
  rw [← htaken, hposition, List.drop_left' (htaken.symm.trans hposition)] at hdrop
  obtain rfl : ["-help"] = rest := hdrop
  obtain rfl : .help text = r := Except.ok.inj (hhelp.symm.trans hr)
  refine ⟨hnames, hnever, hpath, hrest, hargument 0, hargument 1, ⟨text, hhelp⟩, ?_⟩
  cases hparsed hstep with
  | help path left => exact left

/-- There is no argument, and a sub-mode without a name is found all the same. -/
theorem unnamed_steps_over :
    let md := (newArgs {} []).performAll [.addSubModes [""], .parse]
    md.args = [] ∧ md.position = 1 ∧ md.remaining = .error .outOfRange ∧
      md.argument 0 = .error .outOfRange ∧ md.parse.2 = .error .outOfRange :=
  ⟨rfl, rfl, rfl, rfl, rfl⟩

end Modes

end CommandLine

end CycleCheck
