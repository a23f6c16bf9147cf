import CycleCheck.Cartridge.Loader
import CycleCheck.Proofs.Text.Decoding
import Mathlib.Data.List.TakeWhile

/-!
Names of local files. A name goes through the reader of URLs before the file is opened. It comes out
as it is if it has no scheme, no escape, query or fragment, and does not start like a host: then the
file of that name is read, and no other one.
-/

namespace CycleCheck

/-! ## Paths of URLs -/

namespace Text

/-- A name that does not start with a scheme: there is no colon before the first slash. -/
def NoScheme (name : String) : Prop := ':' ∉ name.toList.takeWhile (· ≠ '/')

/-- A name that has no other meaning as a URL: nothing in it starts an escape, a query or a
fragment, and two slashes in front of it are followed by a third one, so that no host is named. -/
structure Literal (name : String) : Prop where
  escape : '%' ∉ name.toList
  query : '?' ∉ name.toList
  fragment : '#' ∉ name.toList
  host : ['/', '/'] <+: name.toList → ['/', '/', '/'] <+: name.toList

namespace Url

theorem cut_eq {c : Char} {cs : List Char} (h : c ∉ cs) : cut c cs = (cs, none) := by
  have hdrop : cs.dropWhile (· ≠ c) = [] := by
    refine List.dropWhile_eq_nil_iff.2 fun d hd => ?_
    simpa using fun hdc : d = c => h (hdc ▸ hd)
  rw [cut, hdrop]

theorem ne_slash_of_isSchemeChar {c : Char} (h : isSchemeChar c = true) : c ≠ '/' := by
  rintro rfl
  exact absurd h (by decide)

/-- A scheme goes as far as the characters of schemes, and a slash is none of them. -/
theorem splitScheme_eq {cs : List Char} (h : ':' ∉ cs.takeWhile (· ≠ '/')) :
    splitScheme cs = some ([], cs) := by
  unfold splitScheme
  dsimp only
  split
  · next rest hrest =>
    refine absurd ?_ h
    rw [← cs.takeWhile_append_dropWhile (p := isSchemeChar), hrest, List.takeWhile_append_of_pos]
    · simp
    · intro c hc
      simpa using ne_slash_of_isSchemeChar (List.mem_takeWhile_imp hc)
  · rfl

theorem unescape_eq {cs : List Char} (h : '%' ∉ cs) :
    unescape cs = some (cs.flatMap String.utf8EncodeChar) := by
  induction cs with
  | nil => rfl
  | cons c rest ih =>
    rw [List.mem_cons, not_or] at h
    obtain ⟨hc, hrest⟩ := h
    rw [unescape, ih hrest, toList_toUTF8_toString, List.flatMap_cons]
    · rfl
    · exact fun _ _ _ hcons _ => hc hcons.symm
    · exact fun hcons => hc hcons.symm

theorem splitAuthority_eq {cs : List Char} (h : ['/', '/'] <+: cs → ['/', '/', '/'] <+: cs) :
    splitAuthority [] cs = some cs := by
  unfold splitAuthority
  split
  · next more =>
    obtain ⟨rest, hrest⟩ := h (List.prefix_append ['/', '/'] more)
    obtain rfl : '/' :: rest = more := by simpa using hrest
    rfl
  · rfl

/-- A literal name is its own path, unless it is no URL at all. -/
theorem parse?_literal {name : String} (hcolon : NoScheme name) (h : Literal name) :
    parse? name = none ∨ parse? name = some ⟨"", name⟩ := by
  rw [parse?, cut_eq h.fragment]
  dsimp only
  unfold parsePlain
  by_cases hcontrol : name.toList.any isControl = true
  · exact .inl (by rw [if_pos hcontrol])
  rw [if_neg hcontrol]
  split_ifs with hstar
  · exact .inr (congrArg some (congrArg (Url.mk "") (String.toList_inj.1 hstar.symm)))
  · right
    have hpath : ¬ (name.toList.head? ≠ some '/' ∧
        (name.toList.takeWhile (· ≠ '/')).contains ':' = true) :=
      fun hrelative => hcolon (List.contains_iff_mem.1 hrelative.2)
    simp only [splitScheme_eq hcolon, cut_eq h.query, bind, Option.bind]
    rw [if_neg (by simp), if_neg hpath, splitAuthority_eq h.host]
    simp only [unescape_eq h.escape, decodeBytes_utf8, String.ofList_toList]
    rfl

end Url

/-! ## Extensions -/

/-- The name ends in the extension of cartridge files, in any letter case. -/
def EndsInNes (name : String) : Prop :=
  ∃ stem ending : List Char, name.toList = stem ++ ending ∧
    ending.map Char.toLower = ".nes".toList

theorem eq_or_of_toLower {c : Char} (x : Char) (h : c.toLower = x) :
    c = x ∨ c = Char.ofNat (x.toNat - 32) := by
  unfold Char.toLower at h
  split at h
  · next hupper =>
    have hle : c.val.toNat ≤ 90 := UInt32.le_iff_toNat_le.1 hupper.2
    have hx : x.toNat = c.toNat + 32 := by
      rw [← h]
      change (c.val + 32).toNat = c.val.toNat + 32
      rw [UInt32.toNat_add]
      exact Nat.mod_eq_of_lt (by change c.val.toNat + 32 < _; omega)
    exact .inr (by rw [hx, Nat.add_sub_cancel, Char.ofNat_toNat])
  · exact .inl h

theorem takeWhile_reverse_append {c : Char} (stem : List Char) {letters : List Char}
    (h : c ∉ letters) : (stem ++ letters).reverse.takeWhile (· ≠ c) =
      letters.reverse ++ stem.reverse.takeWhile (· ≠ c) := by
  rw [List.reverse_append, List.takeWhile_append_of_pos]
  intro d hd
  simpa using fun hdc : d = c => h (hdc ▸ List.mem_reverse.1 hd)

/-- The extension of a path is what follows the last point, with the point. -/
theorem pathExtension_eq {path : String} {stem letters : List Char}
    (h : path.toList = stem ++ '.' :: letters) (hslash : '/' ∉ letters) (hpoint : '.' ∉ letters) :
    pathExtension path = String.ofList ('.' :: letters) := by
  have hname : afterLastSlash path.toList = afterLastSlash stem ++ '.' :: letters := by
    rw [h, afterLastSlash, takeWhile_reverse_append stem (by simp [hslash]), List.reverse_append,
      List.reverse_reverse]
    rfl
  have hending : (afterLastSlash stem ++ '.' :: letters).reverse.takeWhile (· ≠ '.') =
      letters.reverse := by
    rw [List.append_cons, takeWhile_reverse_append _ hpoint]
    simp
  rw [pathExtension, hname, hending, if_pos (by simp), List.reverse_reverse]

theorem EndsInNes.equalFold {name : String} (h : EndsInNes name) :
    equalFold (pathExtension name) ".nes" = true := by
  obtain ⟨stem, ending, hname, hending⟩ := h
  obtain ⟨point, letters, rfl, hpoint, hletters⟩ := List.map_eq_cons_iff.1 hending
  obtain ⟨n, letters, rfl, hn, hletters⟩ := List.map_eq_cons_iff.1 hletters
  obtain ⟨e, letters, rfl, he, hletters⟩ := List.map_eq_cons_iff.1 hletters
  obtain ⟨s, letters, rfl, hs, hletters⟩ := List.map_eq_cons_iff.1 hletters
  obtain rfl := List.map_eq_nil_iff.1 hletters
  obtain rfl | rfl := eq_or_of_toLower '.' hpoint
  case inr => exact absurd hpoint (by decide)
  obtain rfl | rfl := eq_or_of_toLower 'n' hn <;> obtain rfl | rfl := eq_or_of_toLower 'e' he <;>
    obtain rfl | rfl := eq_or_of_toLower 's' hs <;>
    exact pathExtension_eq hname (by decide) (by decide) ▸ (by decide)

end Text

/-! ## Loading -/

namespace Cartridge.Loader

open Text

variable {cl : Loader}

theorem target_literal (hlocal : NoScheme cl.filename) (h : Literal cl.filename) :
    cl.target = ("", cl.filename) := by
  unfold target
  obtain hnone | hsome := Url.parse?_literal hlocal h
  · rw [hnone]
  · rw [hsome]
    simp only [ite_self]

theorem source_of_target {path : String} (htarget : cl.target = ("", path))
    (hextension : equalFold (pathExtension path) ".nes" = true) :
    cl.source = .ok (.file path) := by
  simp [source, htarget, hextension]

theorem source_literal (hlocal : NoScheme cl.filename) (hnes : EndsInNes cl.filename)
    (h : Literal cl.filename) : cl.source = .ok (.file cl.filename) :=
  source_of_target (target_literal hlocal h) hnes.equalFold

/-- What a loader makes of the answer to reading a file: data is kept with its hash, unless another
hash is set. -/
def received (cl : Loader) : Except FileError ByteArray → Except LoaderError Loader
  | .error e => .error (.unreadable e)
  | .ok data =>
      if cl.hash = "" ∨ equalFold cl.hash (hashText data) = true then
        .ok { cl with hash := hashText data, data }
      else .error (.unexpectedHash (hashText data))

theorem accept_eq (data : ByteArray) : cl.accept data = cl.received (.ok data) := by
  unfold accept received
  dsimp only
  by_cases hempty : cl.hash = ""
  · simp [hempty]
  · cases hfold : equalFold cl.hash (hashText data) <;> simp [hempty]

/-- A literal name is the name of the file that is read, and there is no other access to files or to
the network. So the data of the loader becomes the content of that file, unless the hash that is set
is not the hash of the content, and there is an error if the file cannot be read. -/
theorem loads_literal_name (cl : Loader) (hnew : cl.hasLoaded = false)
    (hlocal : NoScheme cl.filename) (hnes : EndsInNes cl.filename)
    (hname : Literal cl.filename) :
    (∀ (m : Type → Type) [Monad m] (read : String → m (Except FileError ByteArray))
      (fetch : String → m (Except String ByteArray)),
      cl.loadFrom read fetch = (do
        let answer ← read cl.filename
        pure (cl.received answer))) ∧
    (∀ (read : String → Except FileError ByteArray) (data : ByteArray),
      read cl.filename = .ok data → cl.hash = "" ∨ equalFold cl.hash (hashText data) = true →
      Id.run (cl.load read) = .ok { cl with hash := hashText data, data }) ∧
    (∀ (read : String → Except FileError ByteArray) (e : FileError),
      read cl.filename = .error e → Id.run (cl.load read) = .error (.unreadable e)) := by
  have hload (m : Type → Type) [Monad m] (read : String → m (Except FileError ByteArray))
      (fetch : String → m (Except String ByteArray)) : cl.loadFrom read fetch = (do
        let answer ← read cl.filename
        pure (cl.received answer)) := by
    rw [loadFrom, hnew, source_literal hlocal hnes hname]
    refine congrArg (read cl.filename >>= ·) (funext fun answer => ?_)
    cases answer with
    | error e => rfl
    | ok data => rw [← accept_eq]
  have hfile (read : String → Except FileError ByteArray) :
      Id.run (cl.load read) = cl.received (read cl.filename) := by
    rw [load, hload Id]
    rfl
  refine ⟨hload, fun read data hread hhash => ?found, fun read e hread => ?missing⟩
  case found => rw [hfile, hread, received, if_pos hhash]
  case missing => rw [hfile, hread, received]

/-- A file of one name. -/
def only (name : String) (data : ByteArray) (path : String) : Except FileError ByteArray :=
  if path = name then .ok data else .error (.notFound path)

/-- A name with a directory, blanks and an extension in mixed letter case. -/
theorem loads_literal_name_demo :
    Id.run (Loader.load { filename := "roms/demo (1).NeS" } (only "roms/demo (1).NeS" ⟨#[2, 3]⟩)) =
      .ok ⟨"roms/demo (1).NeS", hashText ⟨#[2, 3]⟩, ⟨#[2, 3]⟩⟩ := by
  have hlocal : NoScheme "roms/demo (1).NeS" := by
    unfold NoScheme
    decide
  have hnes : EndsInNes "roms/demo (1).NeS" :=
    ⟨"roms/demo (1)".toList, ".NeS".toList, by decide, by decide⟩
  have hname : Literal "roms/demo (1).NeS" := ⟨by decide, by decide, by decide, by decide⟩
  obtain ⟨-, hfound, -⟩ :=
    loads_literal_name { filename := "roms/demo (1).NeS" } rfl hlocal hnes hname
  exact hfound _ ⟨#[2, 3]⟩ rfl (.inl rfl)

/-- A percent sign with two digits names another file than the one that is there. -/
theorem escaped_name_misread :
    NoScheme "a%20b.nes" ∧ EndsInNes "a%20b.nes" ∧
      only "a%20b.nes" ⟨#[1]⟩ "a%20b.nes" = .ok ⟨#[1]⟩ ∧
      Id.run (Loader.load { filename := "a%20b.nes" } (only "a%20b.nes" ⟨#[1]⟩)) =
        .error (.unreadable (.notFound "a b.nes")) := by
  refine ⟨by unfold NoScheme; decide, ⟨"a%20b".toList, ".nes".toList, by decide, by decide⟩, rfl,
    ?_⟩
  have hsource : source { filename := "a%20b.nes" } = .ok (.file "a b.nes") :=
    source_of_target (by decide +kernel) (by decide)
  rw [load, loadFrom, hsource]
  rfl

/-- Queries, fragments and hosts are cut off. -/
example : target { filename := "a?b.nes" } = ("", "a") ∧
    target { filename := "a#b.nes" } = ("", "a") ∧
    target { filename := "//a/b.nes" } = ("", "/b.nes") := by
  decide +kernel

end Cartridge.Loader

end CycleCheck
