import CycleCheck.CommandLine.Flag
import Mathlib.Tactic.Common

/-!
What a set of flags takes from arguments. It takes them from the front, and what it gives back is
the end of what it was given. If nothing is wrong, it has taken the flags with their values up to
the first argument that is no flag, or up to two dashes, and nothing else. Which names are those of
flags does not change on the way.
-/

namespace CycleCheck.CommandLine

/-- What follows the flags of some arguments. `kind` tells which names are those of flags, and
whether of a truth value. -/
inductive AfterFlags (kind : String → Option Bool) : List String → List String → Prop
  | nothing {rest : List String} (h : ∀ s ∈ rest.head?, Argument.read s = .positional) :
      AfterFlags kind rest rest
  | terminator {s : String} {rest : List String} (h : Argument.read s = .terminator) :
      AfterFlags kind (s :: rest) rest
  /-- a truth value, or a flag with its value behind an equals sign -/
  | alone {s name : String} {value : Option String} {truth : Bool} {args rest : List String}
      (h : Argument.read s = .flag name value) (known : kind name = some truth)
      (whole : truth = true ∨ value.isSome) (more : AfterFlags kind args rest) :
      AfterFlags kind (s :: args) rest
  | valued {s name v : String} {args rest : List String} (h : Argument.read s = .flag name none)
      (known : kind name = some false) (more : AfterFlags kind args rest) :
      AfterFlags kind (s :: v :: args) rest

namespace AfterFlags

variable {kind : String → Option Bool} {args rest rest' : List String}

/-- Where the flags end is decided by the arguments. -/
theorem unique (h : AfterFlags kind args rest) (h' : AfterFlags kind args rest') :
    rest = rest' := by
  induction h with
  | nothing hfirst => cases h' <;> simp_all
  | terminator h => cases h' <;> simp_all
  | alone h known whole _ ih =>
    cases h' with
    | nothing hfirst => simp_all
    | terminator h' => simp_all
    | alone _ _ _ more => exact ih more
    | valued h' known' =>
      cases h.symm.trans h'
      cases known.symm.trans known'
      simp at whole
  | valued h known _ ih =>
    cases h' with
    | nothing hfirst => simp_all
    | terminator h' => simp_all
    | alone h' known' whole =>
      cases h.symm.trans h'
      cases known.symm.trans known'
      simp at whole
    | valued _ _ more => exact ih more

end AfterFlags

namespace FlagValue

/-- A flag keeps its kind. -/
theorem isBool_set (v : FlagValue) (s : String) : (v.set s).1.isBool = v.isBool := by
  cases v with
  | text => rfl
  | bool | int | duration | choice =>
    rw [set]
    split <;> rfl

end FlagValue

namespace FlagSet

variable {fs fs' : FlagSet} {f : Flag} {args rest : List String}

/-- Whether a name is that of a flag, and whether of a truth value. -/
def kind (fs : FlagSet) (name : String) : Option Bool := (fs.value? name).map FlagValue.isBool

theorem kind_eq {name : String} (h : fs.find? name = some f) :
    fs.kind name = some f.value.isBool := by
  rw [kind, value?, h]
  rfl

theorem name_of_find? {name : String} (h : fs.find? name = some f) : f.name = name := by
  simpa using List.find?_some h

theorem find?_update (fs : FlagSet) (name name' : String) (v : FlagValue) :
    (fs.update name v).find? name' =
      (fs.find? name').map fun f => if f.name = name then { f with value := v } else f := by
  rw [find?, update, List.find?_map]
  congr 2
  funext f
  simp only [Function.comp]
  split <;> rfl

theorem kind_update {name : String} (h : fs.find? name = some f) {v : FlagValue}
    (hv : v.isBool = f.value.isBool) : (fs.update name v).kind = fs.kind := by
  funext name'
  rw [kind, kind, value?, value?, find?_update]
  cases hfind : fs.find? name' with
  | none => rfl
  | some f' =>
    by_cases hname : f'.name = name
    · have hsame : f' = f := by
        rw [← name_of_find? hfind, hname, h] at hfind
        exact (Option.some.inj hfind).symm
      subst hsame
      simp [hname, hv]
    · simp [hname]

theorem kind_note (fs : FlagSet) (name : String) : (fs.note name).kind = fs.kind := by
  rw [note]
  split <;> rfl

/-- Values that are set leave the names as they are. -/
theorem kind_assign {name : String} (h : fs.find? name = some f) (s : String) :
    (fs.assign f s).1.kind = fs.kind := by
  obtain rfl := name_of_find? h
  have hv := f.value.isBool_set s
  rw [assign]
  split
  · next v hset =>
    rw [hset] at hv
    rw [kind_note, kind_update h hv]
  · next v why hset =>
    rw [hset] at hv
    exact kind_update h hv

theorem kind_of_assign {name s : String} {e : Option FlagError} (h : fs.find? name = some f)
    (hassign : fs.assign f s = (fs', e)) : fs'.kind = fs.kind := by
  rw [← kind_assign h s, hassign]

/-- What is left of some arguments is the end of them; it follows the flags if nothing is wrong. -/
structure Leaves (fs : FlagSet) (args rest : List String) (outcome : FlagOutcome) : Prop where
  suffix : rest <:+ args
  afterFlags : outcome = .done → AfterFlags fs.kind args rest

/-- By induction on the arguments: each flag is read with the values that are set by the flags
before it. -/
theorem leaves_parse (fs : FlagSet) (args : List String) :
    fs.Leaves args (fs.parse args).2.1 (fs.parse args).2.2 := by
  fun_induction parse fs args with
  | case1 => exact ⟨List.suffix_refl _, fun _ => .nothing nofun⟩
  | case2 fs s rest h => exact ⟨List.suffix_refl _, fun _ => .nothing (by simpa using h)⟩
  | case3 fs s rest h => exact ⟨List.suffix_cons .., fun _ => .terminator h⟩
  | case4 => exact ⟨List.suffix_refl _, nofun⟩
  | case5 | case6 | case10 => exact ⟨List.suffix_cons .., nofun⟩
  | case7 fs s name value h f hfind rest htruth fs' hassign ih =>
    rw [hassign]
    have hkind := kind_of_assign hfind hassign
    refine ⟨ih.suffix.trans (List.suffix_cons ..), fun hdone => ?_⟩
    exact .alone h (kind_eq hfind) (.inl htruth) (hkind ▸ ih.afterFlags hdone)
  | case8 fs s name value h f hfind rest htruth fs' e hassign =>
    rw [hassign]
    exact ⟨List.suffix_cons .., nofun⟩
  | case9 fs s name f hfind v rest htruth fs' hassign h ih =>
    have hkind := kind_of_assign hfind hassign
    refine ⟨ih.suffix.trans (List.suffix_cons ..), fun hdone => ?_⟩
    exact .alone h (kind_eq hfind) (.inr rfl) (hkind ▸ ih.afterFlags hdone)
  | case11 fs s name f hfind v rest htruth fs' hassign h ih =>
    have hkind := kind_of_assign hfind hassign
    refine ⟨ih.suffix.trans ⟨[s, v], rfl⟩, fun hdone => ?_⟩
    exact .valued h (htruth ▸ kind_eq hfind) (hkind ▸ ih.afterFlags hdone)
  | case12 fs s name f hfind v => exact ⟨⟨[s, v], rfl⟩, nofun⟩
  | case13 => exact ⟨List.nil_suffix, nofun⟩

end FlagSet

end CycleCheck.CommandLine
