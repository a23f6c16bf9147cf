import CycleCheck.Proofs.Cartridge.Builder
import CycleCheck.Proofs.Cycle.Phase
import CycleCheck.Proofs.Cycle.Sorts

/-!
What the processor reads from a cartridge. The mapper gives the array of the ROM its bytes, a page
takes the low bits of the address as an offset into it, and the builder put a byte at the offset of
its address modulo the size. Both reductions agree because the cartridge area starts at a multiple
of every size that the mapper accepts.
-/

namespace CycleCheck

/-! ## Formulas that give values -/

/-- A formula declares symbols, each once, and its models are those with these values. -/
structure Formula.Gives (f : Formula) (vs : List (String × Meaning)) : Prop where
  signature : f.signature = vs.map fun v => (v.1, v.2.kind)
  unique : (vs.map Prod.fst).Nodup
  models : ∀ I : Interpretation, I.Fits f.signature → (I.Satisfies f ↔ ∀ v ∈ vs, I v.1 = v.2)

namespace Formula.Gives

variable {f g : Formula} {vs : List (String × Meaning)}

theorem nil : Formula.Gives [] [] :=
  ⟨rfl, List.nodup_nil, fun I _ => by simp⟩

/-- One more symbol gets a value, which may rest on the values of the others. -/
theorem concat (h : f.Gives vs) {y : String} {v : Meaning} (hsig : g.signature = [(y, v.kind)])
    (hnew : y ∉ vs.map Prod.fst)
    (hmodels : ∀ I : Interpretation, I.Fits g.signature → (∀ u ∈ vs, I u.1 = u.2) →
      (I.Satisfies g ↔ I y = v)) : (f ++ g).Gives (vs ++ [(y, v)]) where
  signature := by
    rw [Formula.signature_append, h.signature, hsig, List.map_append]
    rfl
  unique := by
    rw [List.map_append, List.nodup_append]
    refine ⟨h.unique, List.nodup_singleton _, ?_⟩
    rintro x hx _ hy rfl
    obtain rfl : x = y := List.mem_singleton.1 hy
    exact hnew hx
  models I fits := by
    obtain ⟨hfits, hfits'⟩ := Interpretation.fits_append.1 fits
    rw [Interpretation.satisfies_append, h.models I hfits, List.forall_mem_append,
      List.forall_mem_singleton]
    exact and_congr_right fun hall => hmodels I hfits' hall

/-- The values are those of a model. -/
theorem exists_model (h : f.Gives vs) :
    ∃ I : Interpretation, I.Fits f.signature ∧ I.Satisfies f := by
  obtain ⟨I, hI, fits, -⟩ :=
    Interpretation.exists_fits_values (fun _ => .truth true) h.signature h.unique
  exact ⟨I, fits, (h.models I fits).2 hI⟩

end Formula.Gives

namespace Cartridge

open CycleCheck.Cycle Memory

/-! ## Reading an address -/

/-- The commands of blocks have a model, and all their models agree on the last version of a
variable. -/
def Forces (t : Timeline) (bs : List Block) (x : String) (v : Meaning) : Prop :=
  ∃ f t', t.applyAll bs = (t', .ok f) ∧
    (∃ I : Interpretation, I.Fits f.signature ∧ I.Satisfies f) ∧
    ∀ I : Interpretation, I.Fits f.signature → I.Satisfies f → I (t'.latest x).name = v

/-- The ROM, an address on the bus of a page, and the handler of the page. -/
def reader (m : Mapper) (h : PageHandler) (a : UInt16) : List Block :=
  [m.initialiser, .pin (Slot.address h.stem) 16 a.toUInt64, h.block]

section Assigns

variable {m : Mapper} {rom : Rom} {t : Timeline} {w : Wire}

/-- A block gives the next version of a wire a value, in the interpretations that satisfy `G`. -/
def Assigns (t : Timeline) (b : Block) (w : Wire) (G : Interpretation → Prop) (v : Meaning) :
    Prop :=
  ∃ f, t.apply b = .ok (f, t.advance [w.name]) ∧
    f.signature = [((t.fresh w.name).name, v.kind)] ∧
    ∀ I : Interpretation, I.Fits f.signature → G I →
      (I.Satisfies f ↔ I (t.fresh w.name).name = v)

/-- A sorted block that writes one wire, by what it says. -/
theorem assigns_of_says {σ : Type} {b : Block} {P : σ → Valuation → Prop} {bits : Nat}
    {v : σ → Meaning} (meaning : b.Says P fun s _ e' => e' w.name = v s)
    (sorted : b.Sorted (kindOf bits)) (hwrites : b.writes = [w].map Wire.name)
    (hreads : ∀ x ∈ b.reads, ∃ w : Wire, 0 < t.next w.name ∧ x = w.name) (s : σ)
    (hkind : (v s).kind = w.kind bits) :
    Assigns t b w (fun I => P s fun x => I (t.latest x).name) (v s) := by
  obtain ⟨f, hgen, hmeans⟩ := meaning.means t.latest t.fresh
  have hnames : ∀ x ∈ b.writes, ∃ w : Wire, x = w.name := by
    rw [hwrites]
    exact fun x hx => ⟨w, List.mem_singleton.1 hx⟩
  refine ⟨f, ?_, ?_, fun I fits h => hmeans s I fits h⟩
  · have happly := Timeline.apply_eq meaning.keeps (readable_of_wires hreads)
      (isName_of_wires hnames) hgen
    rwa [hwrites] at happly
  · rw [(sorted.declares _ _ f hgen).1, hwrites, hkind, ← kindOf_name]
    rfl

theorem kind_content (hm : MapsTo m rom) : (content rom).kind = .array m.addressBits 8 := by
  rw [content, hm.addressBits]
  rfl

theorem initialiser_assigns (hm : MapsTo m rom) (t : Timeline) :
    Assigns t m.initialiser .prg (fun _ => True) (content rom) :=
  assigns_of_says (initialiser_means hm) (sorted_initialiser hm) rfl
    (by simp [Mapper.initialiser]) () (kind_content hm)

theorem pin_assigns (t : Timeline) (w : Wire) (a : UInt16) :
    Assigns t (.pin w.name 16 a.toUInt64) w (fun _ => True) (.bits 16 a.toBitVec) := by
  obtain ⟨f, happly, hsig, hmodels⟩ :=
    t.exists_apply_pin w.isName (by decide) (by decide) a.toBitVec
  have hvalue : a.toBitVec.toNat.toUInt64 = a.toUInt64 := by
    rw [UInt16.toNat_toBitVec]
    exact UInt64.toNat_inj.1 (by simp)
  exact ⟨f, hvalue ▸ happly, hsig, fun I _ _ => hmodels I⟩

theorem exists_romHandler_assigns (hm : MapsTo m rom) (page : Fin 16) (hpage : 8 ≤ page.val) :
    ∃ h, m.handler? page.val = some h ∧ h.stem = Wire.stem page ∧
      ∀ t : Timeline, 0 < t.next (Wire.address page).name → 0 < t.next Wire.prg.name →
        ∀ a, Assigns t h.block (.answer page)
          (fun I => Lookup rom page a fun x => I (t.latest x).name) (.bits 8 (romByte rom a)) := by
  obtain ⟨h, hh, hstem, hreads, hwrites, hsays⟩ := exists_romHandler hm page hpage
  refine ⟨h, hh, hstem, fun t haddress hprg a => ?_⟩
  refine assigns_of_says hsays (sorted_romHandler hm page hh).1 hwrites ?_ a rfl
  rw [hreads]
  simp only [List.map_cons, List.map_nil, List.forall_mem_cons]
  exact ⟨⟨.address page, haddress, rfl⟩, ⟨.prg, hprg, rfl⟩, by simp⟩

/-- A symbol more, after those that have values. -/
theorem Assigns.gives {b : Block} {G : Interpretation → Prop} {v : Meaning}
    (h : Assigns t b w G v) {f : Formula} {vs : List (String × Meaning)} (hf : f.Gives vs)
    (hnew : (t.fresh w.name).name ∉ vs.map Prod.fst)
    (hG : ∀ I : Interpretation, (∀ u ∈ vs, I u.1 = u.2) → G I) :
    ∃ g, t.apply b = .ok (g, t.advance [w.name]) ∧
      (f ++ g).Gives (vs ++ [((t.fresh w.name).name, v)]) := by
  obtain ⟨g, happly, hsig, hmodels⟩ := h
  exact ⟨g, happly, hf.concat hsig hnew fun I fits hall => hmodels I fits (hG I hall)⟩

end Assigns

section Reader

variable {m : Mapper} {rom : Rom} {t : Timeline}

theorem name_notMem {v w : Wire} (h : v ≠ w) : v.name ∉ [w.name] := fun hmem =>
  h (Wire.name_injective (List.mem_singleton.1 hmem))

theorem fresh_ne {t t' : Timeline} {v w : Wire} (h : v ≠ w) :
    (t.fresh v.name).name ≠ (t'.fresh w.name).name := fun heq =>
  h (Wire.name_injective (Timeline.versionedName_injective heq).1)

/-- A read of the ROM forces the answer of the page. -/
theorem forces_romByte (hm : MapsTo m rom) (page : Fin 16) (hpage : 8 ≤ page.val) (a : UInt16) :
    ∃ h, m.handler? page.val = some h ∧
      ∀ t, Forces t (reader m h a) (Slot.dataOut h.stem) (.bits 8 (romByte rom a.toBitVec)) := by
  obtain ⟨h, hh, hstem, hassigns⟩ := exists_romHandler_assigns hm page hpage
  refine ⟨h, hh, fun t => ?_⟩
  let t₁ := t.advance [Wire.prg.name]
  let t₂ := t₁.advance [(Wire.address page).name]
  have hprg : t₂.latest Wire.prg.name = t.fresh Wire.prg.name := by
    rw [Timeline.latest_advance_of_notMem (name_notMem (by simp)),
      Timeline.latest_advance (List.mem_singleton_self _)]
  have haddress : t₂.latest (Wire.address page).name = t₁.fresh (Wire.address page).name :=
    Timeline.latest_advance (List.mem_singleton_self _)
  have haddressPos : 0 < t₂.next (Wire.address page).name :=
    Timeline.pos_advance (.inl (List.mem_singleton_self _))
  have hprgPos : 0 < t₂.next Wire.prg.name :=
    Timeline.pos_advance (.inr (Timeline.pos_advance (.inl (List.mem_singleton_self _))))
  -- the handler finds what the mapper and the pin gave
  obtain ⟨f₁, happly₁, hgives₁⟩ :=
    (initialiser_assigns hm t).gives .nil (by simp) fun _ _ => trivial
  obtain ⟨f₂, happly₂, hgives₂⟩ := (pin_assigns t₁ (.address page) a).gives hgives₁
    (by simpa using fresh_ne (by simp)) fun _ _ => trivial
  obtain ⟨f₃, happly₃, hgives₃⟩ := (hassigns t₂ haddressPos hprgPos a.toBitVec).gives hgives₂
    (by simpa using ⟨fresh_ne (by simp), fresh_ne (by simp)⟩) fun I hI =>
      ⟨(congrArg (fun s : Symbol => I s.name) haddress).trans (hI (_, .bits 16 _) (by simp)),
        (congrArg (fun s : Symbol => I s.name) hprg).trans (hI (_, content rom) (by simp))⟩
  have hyields : t.Yields (reader m h a) [f₁, f₂, f₃] (t₂.advance [(Wire.answer page).name]) := by
    refine .cons happly₁ (.cons ?_ (.cons happly₃ .nil))
    rw [hstem]
    exact happly₂
  have hflatten : [f₁, f₂, f₃].flatten = [] ++ f₁ ++ f₂ ++ f₃ := by simp
  rw [← hflatten] at hgives₃
  refine ⟨_, _, hyields.applyAll_eq, hgives₃.exists_model, fun I fits hsat => ?_⟩
  have hlatest : (t₂.advance [(Wire.answer page).name]).latest (Slot.dataOut h.stem) =
      t₂.fresh (Wire.answer page).name := by
    rw [hstem]
    exact Timeline.latest_advance (List.mem_singleton_self _)
  rw [hlatest]
  exact (hgives₃.models I fits).1 hsat _ (List.mem_append_right _ (List.mem_singleton_self _))

end Reader

/-! ## What was written is read -/

/-- The two reductions of an address agree. -/
theorem romByte_eq (hm : MapsTo m rom) {a : UInt16} (ha : originCartridge ≤ a.toNat) :
    romByte rom a.toBitVec =
      (Bytes.get rom.prg ((a.toNat - originCartridge) % rom.prg.size)).toBitVec := by
  have hdvd : rom.prg.size ∣ originCartridge := hm.size_dvd
  have hmod : a.toNat % rom.prg.size = (a.toNat - originCartridge) % rom.prg.size := by
    conv_lhs => rw [← Nat.sub_add_cancel ha]
    rw [Nat.add_mod, Nat.mod_eq_zero_of_dvd hdvd, Nat.add_zero, Nat.mod_mod]
  rw [romByte, UInt16.toNat_toBitVec, hmod]

/-- What is written into a cartridge is what the processor reads. -/
theorem reads_written {steps : List BuilderStep}
    (hbanks : ∀ n, BuilderStep.banks n ∈ steps → n < 2 ^ 49) :
    (∀ before, before <+: steps → Builder.Sized (Builder.after before).rom.prg ∧
      ∀ e, (Builder.after before).build = .error e →
        ∀ more, (Builder.after (before ++ more)).build = .error e) ∧
    ∀ rom m, (Builder.after steps).build = .ok rom → Mapper.ofRom rom = .ok m →
      ∀ a : UInt16, originCartridge ≤ a.toNat →
        ∃ h, m.handler? (pageOf a) = some h ∧
          ∀ t, Forces t (reader m h a) (Slot.dataOut h.stem)
            (.bits 8 ((History.of steps).byte rom.prg.size a.toNat).toBitVec) := by
  refine ⟨fun before hbefore => ⟨?_, fun e he more => ?_⟩, fun rom m hrom hm a ha => ?_⟩
  · exact Builder.sized_after fun n hn => hbanks n (hbefore.subset hn)
  · rw [Builder.build_eq_error_iff] at he ⊢
    exact Builder.error_after he more
  · obtain ⟨hnone, rfl⟩ := Builder.build_eq_ok_iff.1 hrom
    have hmaps := mapsTo_of_ofRom hm
    have hpage : 8 ≤ pageOf a ∧ pageOf a < 16 := by
      have hlt := a.toNat_lt
      unfold originCartridge at ha
      rw [pageOf_eq]
      omega
    obtain ⟨h, hh, hforces⟩ := forces_romByte hmaps ⟨pageOf a, hpage.2⟩ hpage.1 a
    refine ⟨h, hh, fun t => ?_⟩
    rw [← (Builder.holds_after hbanks hnone).byte a.toNat ha, ← romByte_eq hmaps ha]
    exact hforces t

/-- A vector that is written through the mirror of its address replaces what was there. -/
theorem reads_written_mirror : ∃ rom m h,
    (Builder.after [.write 0xfffc [1, 2], .vector 0xbffc 0x8005]).build = .ok rom ∧
    Mapper.ofRom rom = .ok m ∧ m.handler? 15 = some h ∧
    ∀ t, Forces t (reader m h 0xfffc) (Slot.dataOut h.stem) (.bits 8 5) := by
  let steps : List BuilderStep := [.write 0xfffc [1, 2], .vector 0xbffc 0x8005]
  have hbanks : ∀ n, BuilderStep.banks n ∈ steps → n < 2 ^ 49 := by simp [steps]
  have hwrite : ∀ {b}, Builder.Plain bankSize b →
      Builder.Plain bankSize (b.perform (.write 0xfffc [1, 2])) :=
    fun hb => hb.write (by decide) (by decide)
  have hvector : ∀ {b}, Builder.Plain bankSize b →
      Builder.Plain bankSize (b.perform (.vector 0xbffc 0x8005)) :=
    fun hb => hb.vector (by decide) (by decide) _
  have hplain : Builder.Plain bankSize (Builder.after steps) :=
    hvector (hwrite Builder.plain_empty)
  have hbuild : (Builder.after steps).build = .ok (Builder.after steps).rom :=
    Builder.build_eq_ok_iff.2 ⟨hplain.error, rfl⟩
  have hmapper : Mapper.ofRom (Builder.after steps).rom = .ok ⟨(Builder.after steps).rom, 14⟩ := by
    rw [Mapper.ofRom, if_neg (not_not.2 hplain.mapper), if_pos hplain.size]
  obtain ⟨h, hh, hforces⟩ := (reads_written hbanks).2 _ _ hbuild hmapper 0xfffc (by decide)
  have hbyte : (History.of steps).byte bankSize 0xfffc = 5 := by decide
  rw [hplain.size, show (0xfffc : UInt16).toNat = 0xfffc from rfl, hbyte] at hforces
  exact ⟨_, _, h, hbuild, hmapper, hh, hforces⟩

end Cartridge

end CycleCheck
