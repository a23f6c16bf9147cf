import CycleCheck.Proofs.Cartridge.FileName
import Mathlib.Tactic.Common

/-!
Calls of a loader. Files and the network may change between the calls, and the hash may be set to
something else until a load succeeds. A load that fails changes nothing, and one that succeeds does
so with data that has the hash. Once data has been loaded, nothing is loaded again; data without any
bytes is not taken as loaded.
-/

namespace CycleCheck.Cartridge.Loader

open Text

/-! ## Calls -/

/-- Files and the network at the moment of a load. -/
structure Outside where
  read : String → Except FileError ByteArray
  fetch : String → Except String ByteArray

/-- What is there to load. -/
def Outside.supply (w : Outside) : Source → Except LoaderError ByteArray
  | .file path => (w.read path).mapError .unreadable
  | .network url => (w.fetch url).mapError .unreachable

inductive Event where
  | setHash (hash : String)
  | load (w : Outside)

/-- The answer of a load. -/
def answer (cl : Loader) (w : Outside) : Except LoaderError Loader :=
  Id.run (cl.loadFrom w.read w.fetch)

/-- The loader after an event. There is no other loader than before if a load fails. -/
def perform (cl : Loader) : Event → Loader
  | .setHash hash => { cl with hash }
  | .load w =>
      match cl.answer w with
      | .ok cl' => cl'
      | .error _ => cl

def performAll (cl : Loader) (events : List Event) : Loader := events.foldl perform cl

/-- The hash is set only before the first load that succeeds. -/
def Orderly : Loader → List Event → Prop
  | _, [] => True
  | cl, .setHash hash :: rest => Orderly { cl with hash } rest
  | cl, .load w :: rest =>
      match cl.answer w with
      | .ok _ => ∀ hash, .setHash hash ∉ rest
      | .error _ => Orderly cl rest

variable {cl cl' : Loader} {w : Outside} {events rest : List Event}

theorem performAll_cons (cl : Loader) (e : Event) (events : List Event) :
    cl.performAll (e :: events) = (cl.perform e).performAll events := rfl

theorem perform_of_ok (h : cl.answer w = .ok cl') : cl.perform (.load w) = cl' := by
  rw [perform, h]

theorem perform_of_error {e : LoaderError} (h : cl.answer w = .error e) :
    cl.perform (.load w) = cl := by
  rw [perform, h]

/-! ## One load -/

theorem hasLoaded_iff : cl.hasLoaded = true ↔ cl.data.size ≠ 0 :=
  decide_eq_true_iff.trans Nat.pos_iff_ne_zero

theorem answer_of_hasLoaded (h : cl.hasLoaded = true) (w : Outside) : cl.answer w = .ok cl := by
  rw [answer, loadFrom, if_pos h]
  rfl

theorem answer_eq (hnew : cl.hasLoaded = false) (w : Outside) :
    cl.answer w = cl.source >>= w.supply >>= cl.accept := by
  rw [answer, loadFrom, hnew, if_neg Bool.false_ne_true]
  rcases cl.source with _ | path | url
  · rfl
  · dsimp only [bind, Except.bind, Outside.supply]
    cases w.read path <;> rfl
  · dsimp only [bind, Except.bind, Outside.supply]
    cases w.fetch url <;> rfl

/-- What is loaded is accepted, wherever it comes from. -/
theorem accept_of_answer (hnew : cl.hasLoaded = false) (h : cl.answer w = .ok cl') :
    ∃ data, cl.accept data = .ok cl' := by
  rw [answer_eq hnew] at h
  cases hdata : cl.source >>= w.supply with
  | error e =>
    rw [hdata] at h
    cases h
  | ok data =>
    rw [hdata] at h
    exact ⟨data, h⟩

/-- The data that is loaded has the hash that is set, and its hash is kept with it. -/
theorem eq_of_answer (hnew : cl.hasLoaded = false) (h : cl.answer w = .ok cl') :
    (cl.hash = "" ∨ equalFold cl.hash (hashText cl'.data) = true) ∧
      cl' = { cl with hash := hashText cl'.data, data := cl'.data } := by
  obtain ⟨data, haccept⟩ := accept_of_answer hnew h
  rw [accept_eq, received] at haccept
  split_ifs at haccept with hhash
  cases haccept
  exact ⟨hhash, rfl⟩

theorem equalFold_self (s : String) : equalFold s s = true := by
  rw [equalFold, beq_self_eq_true]

/-- A loader whose hash is the hash of its data. -/
def Hashed (cl : Loader) : Prop := cl.hash = hashText cl.data

theorem hashed_of_answer (hnew : cl.hasLoaded = false) (h : cl.answer w = .ok cl') :
    cl'.Hashed := by
  rw [(eq_of_answer hnew h).2]
  rfl

/-- A load keeps the hash of the data. -/
theorem Hashed.load (h : cl.Hashed) (w : Outside) : (cl.perform (.load w)).Hashed := by
  cases hanswer : cl.answer w with
  | error e => rwa [perform_of_error hanswer]
  | ok cl' =>
    rw [perform_of_ok hanswer]
    cases hloaded : cl.hasLoaded with
    | false => exact hashed_of_answer hloaded hanswer
    | true =>
      rw [answer_of_hasLoaded hloaded, Except.ok.injEq] at hanswer
      exact hanswer ▸ h

/-! ## Many loads -/

/-- Events that do not set the hash are loads. -/
theorem forall_load (h : ∀ hash, .setHash hash ∉ events) : ∀ e ∈ events, ∃ w, e = .load w := by
  intro e he
  cases e with
  | setHash hash => exact absurd he (h hash)
  | load w => exact ⟨w, rfl⟩

theorem Hashed.loads (h : cl.Hashed) (hloads : ∀ hash, .setHash hash ∉ events) :
    (cl.performAll events).Hashed := by
  induction events generalizing cl with
  | nil => exact h
  | cons e rest ih =>
    obtain ⟨w, rfl⟩ := forall_load hloads e List.mem_cons_self
    exact ih (h.load w) fun hash hmem => hloads hash (List.mem_cons_of_mem _ hmem)

/-- Once data has been loaded, loads change nothing. -/
theorem performAll_of_hasLoaded (h : cl.hasLoaded = true)
    (hloads : ∀ hash, .setHash hash ∉ events) : cl.performAll events = cl := by
  induction events with
  | nil => rfl
  | cons e rest ih =>
    obtain ⟨w, rfl⟩ := forall_load hloads e List.mem_cons_self
    rw [performAll_cons, perform_of_ok (answer_of_hasLoaded h w)]
    exact ih fun hash hmem => hloads hash (List.mem_cons_of_mem _ hmem)

/-- Before the first load that succeeds there is no data; after it the hash is not set any more and
is the hash of the data. -/
theorem Orderly.after (hnew : cl.hasLoaded = false) (h : cl.Orderly (events ++ rest)) :
    ((cl.performAll events).hasLoaded = false ∧ (cl.performAll events).Orderly rest) ∨
      ((cl.performAll events).Hashed ∧ ∀ hash, .setHash hash ∉ rest) := by
  induction events generalizing cl with
  | nil => exact .inl ⟨hnew, h⟩
  | cons e events ih =>
    rw [performAll_cons]
    cases e with
    | setHash hash => exact ih hnew h
    | load w =>
      rw [List.cons_append, Orderly] at h
      cases hanswer : cl.answer w with
      | error e =>
        rw [hanswer] at h
        rw [perform_of_error hanswer]
        exact ih hnew h
      | ok cl' =>
        rw [hanswer] at h
        rw [perform_of_ok hanswer]
        refine .inr ⟨(hashed_of_answer hnew hanswer).loads fun hash hmem => ?_, fun hash hmem => ?_⟩
        · exact h hash (List.mem_append_left _ hmem)
        · exact h hash (List.mem_append_right _ hmem)

/-- A load that succeeds has the hash of its data, which is the one that was set, if one was, and
the hash is not set after it. -/
theorem Orderly.answered {filename hash : String} {before after : List Event}
    (h : Orderly { filename, hash } (before ++ .load w :: after))
    (hanswer : answer (performAll { filename, hash } before) w = .ok cl') :
    ((performAll { filename, hash } before).hash = "" ∨
      equalFold (performAll { filename, hash } before).hash (hashText cl'.data) = true) ∧
      cl'.Hashed ∧ ∀ s, .setHash s ∉ after := by
  have hfirst : Loader.hasLoaded { filename, hash } = false := rfl
  obtain ⟨hnew, hrest⟩ | ⟨hhashed, hloads⟩ := Orderly.after hfirst h
  · rw [Orderly, hanswer] at hrest
    exact ⟨(eq_of_answer hnew hanswer).1, hashed_of_answer hnew hanswer, hrest⟩
  · have hafter : ∀ s, .setHash s ∉ after := fun s hmem => hloads s (List.mem_cons_of_mem _ hmem)
    cases hloaded : (performAll { filename, hash } before).hasLoaded with
    | false => exact ⟨(eq_of_answer hloaded hanswer).1, hashed_of_answer hloaded hanswer, hafter⟩
    | true =>
      rw [answer_of_hasLoaded hloaded, Except.ok.injEq] at hanswer
      subst hanswer
      exact ⟨.inr (hhashed ▸ equalFold_self _), hhashed, hafter⟩

/-- In any calls in order, a load that fails changes nothing, and one that succeeds does so with
data that has the hash. If the data is not empty, it is loaded, and all later loads succeed and
change nothing, whatever has become of the files and the network. -/
theorem loads_once (filename hash : String) (before after : List Event) (w : Outside)
    (h : Orderly { filename, hash } (before ++ .load w :: after)) :
    let cl := performAll { filename, hash } before
    (∀ e, cl.answer w = .error e → cl.perform (.load w) = cl) ∧
    ∀ cl', cl.answer w = .ok cl' →
      cl.perform (.load w) = cl' ∧ cl'.hash = hashText cl'.data ∧
      (cl.hash = "" ∨ equalFold cl.hash (hashText cl'.data) = true) ∧
      (cl'.hasLoaded = true ↔ cl'.data.size ≠ 0) ∧
      (cl'.data.size ≠ 0 → ∀ middle w' rest, after = middle ++ .load w' :: rest →
        cl'.performAll middle = cl' ∧ cl'.answer w' = .ok cl') := by
  intro cl
  refine ⟨fun e => perform_of_error, fun cl' hanswer => ?_⟩
  obtain ⟨hhash, hhashed, hafter⟩ := h.answered hanswer
  refine ⟨perform_of_ok hanswer, hhashed, hhash, hasLoaded_iff,
    fun hdata middle w' rest hsplit => ?_⟩
  have hloaded := hasLoaded_iff.2 hdata
  have hmiddle : cl'.performAll middle = cl' :=
    performAll_of_hasLoaded hloaded fun s hmem => hafter s (hsplit ▸ List.mem_append_left _ hmem)
  exact ⟨hmiddle, answer_of_hasLoaded hloaded w'⟩

/-- There are no files and no network. -/
def nothing : Outside := ⟨fun path => .error (.notFound path), fun _ => .error "no network"⟩

/-- There is one file and no network. -/
def oneFile (name : String) (data : ByteArray) : Outside := { nothing with read := only name data }

theorem source_demo (hash : String) :
    source { filename := "demo.nes", hash } = .ok (.file "demo.nes") :=
  have hlocal : NoScheme "demo.nes" := by
    unfold NoScheme
    decide
  have hnes : EndsInNes "demo.nes" := ⟨"demo".toList, ".nes".toList, by decide, by decide⟩
  have hname : Literal "demo.nes" := ⟨by decide, by decide, by decide, by decide⟩
  source_literal hlocal hnes hname

theorem answer_nothing (hash : String) : answer { filename := "demo.nes", hash } nothing =
    .error (.unreadable (.notFound "demo.nes")) := by
  rw [answer, loadFrom, source_demo]
  rfl

theorem answer_oneFile (data : ByteArray) :
    answer { filename := "demo.nes" } (oneFile "demo.nes" data) =
      .ok ⟨"demo.nes", hashText data, data⟩ := by
  have haccept : Loader.accept { filename := "demo.nes" } data =
      .ok ⟨"demo.nes", hashText data, data⟩ := by
    rw [accept_eq, received, if_pos (.inl rfl)]
  rw [answer, loadFrom, source_demo, ← haccept]
  rfl

/-- A file that is there after a load has failed and the hash has been taken back, and that is gone
again later. -/
theorem loads_once_demo :
    let cl : Loader := ⟨"demo.nes", hashText ⟨#[1]⟩, ⟨#[1]⟩⟩
    performAll { filename := "demo.nes", hash := "00" }
      [.load nothing, .setHash "", .load (oneFile "demo.nes" ⟨#[1]⟩)] = cl ∧
      cl.answer nothing = .ok cl := by
  intro cl
  have hbefore : performAll { filename := "demo.nes", hash := "00" }
      [.load nothing, .setHash ""] = { filename := "demo.nes" } := by
    rw [performAll_cons, perform_of_error (answer_nothing "00")]
    rfl
  have horderly : Orderly { filename := "demo.nes", hash := "00" }
      ([.load nothing, .setHash ""] ++ .load (oneFile "demo.nes" ⟨#[1]⟩) :: [.load nothing]) := by
    rw [List.cons_append, Orderly, answer_nothing]
    simp only [List.cons_append, List.nil_append, Orderly, answer_oneFile]
    simp
  obtain ⟨-, hok⟩ := loads_once "demo.nes" "00" [.load nothing, .setHash ""] [.load nothing]
    (oneFile "demo.nes" ⟨#[1]⟩) horderly
  rw [hbefore] at hok
  obtain ⟨hperform, -, -, -, hlater⟩ := hok cl (answer_oneFile ⟨#[1]⟩)
  obtain ⟨-, hagain⟩ := hlater (by decide) [] nothing [] rfl
  refine ⟨?_, hagain⟩
  rw [← hperform, ← hbefore]
  rfl

/-- An empty file is loaded without an error, but the loader does not take it as loaded, and looks
for the file again. -/
theorem empty_file_loaded_again :
    let cl : Loader := ⟨"demo.nes", hashText .empty, .empty⟩
    answer { filename := "demo.nes" } (oneFile "demo.nes" .empty) = .ok cl ∧
      cl.hasLoaded = false ∧ cl.answer nothing = .error (.unreadable (.notFound "demo.nes")) :=
  ⟨answer_oneFile .empty, rfl, answer_nothing _⟩

end CycleCheck.Cartridge.Loader
