import CycleCheck.Proofs.Cycle.Architecture
import CycleCheck.Proofs.Cycle.Transition

/-!
Instructions on the reference machine. The cycles of an addressing mode put the effective address
together; then there is one access of the operand, and the last cycle fetches the next opcode.
-/

namespace CycleCheck.Cycle

open Processor

/-! ## Bytes and words -/

theorem toNat_append_byte (x d : BitVec 8) : (x ++ d).toNat = x.toNat * 256 + d.toNat := by
  rw [BitVec.toNat_append, ← Nat.shiftLeft_add_eq_or_of_lt d.isLt, Nat.shiftLeft_eq]

theorem setWidth_append_byte (x d : BitVec 8) : (x ++ d).setWidth 8 = d := by
  apply BitVec.eq_of_toNat_eq
  rw [BitVec.toNat_setWidth, toNat_append_byte]
  omega

/-- Without a carry the index changes the low byte only. -/
theorem append_add_byte (x d v : BitVec 8) (h : d.toNat + v.toNat < 0x100) :
    x ++ (d + v) = (x ++ d) + v.setWidth 16 := by
  apply BitVec.eq_of_toNat_eq
  have hx := x.isLt
  rw [BitVec.toNat_add, toNat_append_byte, toNat_append_byte, BitVec.toNat_add,
    BitVec.toNat_setWidth]
  omega

/-! ## Cycles inside an instruction -/

/-- The state after the outputs of a transition and the access of the bus. -/
def after (rom : Cartridge.Rom) (m : Cells) (c : Cpu) : State := ⟨c, c.respond rom m, c.store m⟩

theorem after_of_read {rom : Cartridge.Rom} {m : Cells} {c : Cpu} (h : c.writeEnable = 0) :
    after rom m c = ⟨c, peek rom m c.addressBus, m⟩ := by
  simp [after, Cpu.respond, Cpu.store, peek, h]

theorem Step.eq_after {rom : Cartridge.Rom} {s s' : State} {c : Cpu} (h : Step rom s s')
    (hc : s.cpu.next? s.dataIn = some c) : s' = after rom s.ram c := by
  cases s'
  rw [after, ← h.cpu c hc, ← h.dataIn, ← h.ram]

/-- The state after one cycle. The outputs stay if there is no transition. -/
def State.next (rom : Cartridge.Rom) (s : State) : State :=
  after rom s.ram ((s.cpu.next? s.dataIn).getD s.cpu)

theorem State.next_eq {rom : Cartridge.Rom} {s : State} {c : Cpu}
    (hc : s.cpu.next? s.dataIn = some c) : s.next rom = after rom s.ram c := by
  rw [State.next, hc, Option.getD_some]

theorem State.step_next (rom : Cartridge.Rom) (s : State) : Step rom s (s.next rom) := by
  refine ⟨fun c hc => ?_, rfl, rfl⟩
  rw [State.next_eq hc]
  rfl

/-- Some cycles, none of which ends at the fetch of an opcode. -/
inductive Inside (rom : Cartridge.Rom) (s₀ : State) : Nat → State → Prop where
  | refl : Inside rom s₀ 0 s₀
  | snoc {n : Nat} {s : State} {c : Cpu} (before : Inside rom s₀ n s)
      (next : s.cpu.next? s.dataIn = some c) (inside : c.state ≠ codeOf .instructionFetch) :
      Inside rom s₀ (n + 1) (after rom s.ram c)

/-- Every run takes the cycles of an instruction. -/
theorem Inside.trace {rom : Cartridge.Rom} {s₀ s : State} {n : Nat} (h : Inside rom s₀ n s)
    {trace : Nat → State} (hstart : trace 0 = s₀)
    (hstep : ∀ j < n, Step rom (trace j) (trace (j + 1))) :
    trace n = s ∧ ∀ j < n, trace (j + 1) = (trace j).next rom ∧
      (trace (j + 1)).cpu.state ≠ codeOf .instructionFetch := by
  induction h with
  | refl => exact ⟨hstart, fun j hj => absurd hj (Nat.not_lt_zero j)⟩
  | @snoc n s c _ next inside ih =>
    obtain ⟨hend, hinside⟩ := ih fun j hj => hstep j (by omega)
    rw [← hend] at next ⊢
    have hlast : trace (n + 1) = after rom (trace n).ram c := (hstep n (by omega)).eq_after next
    refine ⟨hlast, fun j hj => ?_⟩
    by_cases hn : j = n
    · rw [hn, State.next_eq next, hlast]
      exact ⟨rfl, inside⟩
    · exact hinside j (by omega)

theorem codeOf_ne {m : MicroState} (hm : m ∈ microStates) (hne : m ≠ .instructionFetch) :
    codeOf m ≠ codeOf .instructionFetch := by
  intro h
  have hcode := microState?_codeOf hm
  rw [h, microState?_codeOf instructionFetch_mem] at hcode
  exact hne (Option.some.inj hcode).symm

section Cycles

variable {rom : Cartridge.Rom} {s₀ : State} {n k : Nat} {i : Instruction} {b c : Cpu}
  {d : BitVec 8} {m : Cells} {next : MicroState}

/-- One more cycle of an instruction. -/
theorem Inside.cycle (h : Inside rom s₀ n ⟨c, d, m⟩) (hi : i ∈ Instruction.table)
    (hk : .cycle i.label k ∈ microStates) (hc : c.state = codeOf (.cycle i.label k))
    (hcycle : c.cycle? i k d = some (b.goto next)) (hnext : next ∈ microStates)
    (hne : next ≠ .instructionFetch) : Inside rom s₀ (n + 1) (after rom m (b.goto next)) :=
  h.snoc ((Cpu.next?_cycle hi hk hc d).trans hcycle) (codeOf_ne hnext hne)

theorem Inside.fixup (h : Inside rom s₀ n ⟨c, d, m⟩) (hi : i ∈ Instruction.table)
    (hk : .fixup i.label k ∈ microStates) (hc : c.state = codeOf (.fixup i.label k))
    (hcycle : c.fixup? i k = some (b.goto next)) (hnext : next ∈ microStates)
    (hne : next ≠ .instructionFetch) : Inside rom s₀ (n + 1) (after rom m (b.goto next)) :=
  h.snoc ((Cpu.next?_fixup hi hk hc d).trans hcycle) (codeOf_ne hnext hne)

theorem Inside.of_read (h : Inside rom s₀ n (after rom m c)) (hwrite : c.writeEnable = 0)
    {address : BitVec 16} (haddress : c.addressBus = address) :
    Inside rom s₀ n ⟨c, peek rom m address, m⟩ := by
  rwa [after_of_read hwrite, haddress] at h

end Cycles

/-! ## The last cycle -/

/-- The registers are kept. -/
structure Keeps (c b : Cpu) : Prop where
  get : ∀ r, b.get r = c.get r
  sp : b.sp = c.sp
  p : b.p = c.p

/-- After `n` cycles the operand is accessed, and there is one more cycle. -/
def Approaches (rom : Cartridge.Rom) (i : Instruction) (s : State) (n : Nat)
    (address pc : BitVec 16) : Prop :=
  ∃ (c : Cpu) (k : Nat), Keeps s.cpu c ∧ c.pc = pc ∧ .cycle i.label k ∈ microStates ∧
    (∀ (b : Cpu) (d : BitVec 8), b.cycle? i k d = some (b.finish i d)) ∧
    Inside rom s n (after rom s.ram ((c.access i address).goto (.cycle i.label k)))

/-- After `n` cycles the last one ends at a boundary, with the effect of the instruction. -/
def Completes (rom : Cartridge.Rom) (i : Instruction) (s : State) (n : Nat)
    (address pc : BitVec 16) : Prop :=
  ∃ (s₁ : State) (c : Cpu), Inside rom s n s₁ ∧ s₁.cpu.next? s₁.dataIn = some c ∧
    Boundary rom (after rom s₁.ram c) ∧ c.pc = pc ∧
    Executes rom i address s.cpu s.ram (after rom s₁.ram c)

theorem boundary_fetch (rom : Cartridge.Rom) (m : Cells) (c : Cpu) :
    Boundary rom (after rom m (c.fetch.goto .instructionFetch)) := by
  rw [after_of_read rfl]
  exact ⟨rfl, rfl, (BitVec.add_sub_cancel c.pc 1).symm, rfl⟩

theorem loaded_load (c : Cpu) (r : Register) (v : BitVec 8) : Loaded r v c (c.load r v) := by
  have hp : (c.load r v).p = setBit (setBit c.p Flag.zero.bit (v == 0)) Flag.sign.bit v.msb := by
    cases r <;> rfl
  have hbit : ∀ b, (c.load r v).p.getLsbD b = if b = Flag.sign.bit then v.msb
      else if b = Flag.zero.bit then v == 0 else c.p.getLsbD b := by
    intro b
    rw [hp, getLsbD_setBit _ (by decide), getLsbD_setBit _ (by decide)]
  refine ⟨by cases r <;> rfl, fun q hq => ?_, ?_, ?_, fun b hzero hsign => ?_⟩
  · cases r <;> cases q <;> first | rfl | exact absurd rfl hq
  · rw [hbit, if_neg (by decide), if_pos rfl]
  · rw [hbit, if_pos rfl]
  · rw [hbit, if_neg hsign, if_neg hzero]

namespace Keeps

variable {b c : Cpu}

theorem refl (c : Cpu) : Keeps c c := ⟨fun _ => rfl, rfl, rfl⟩

/-- Outputs with the same registers. -/
theorem of_eq (h : Keeps c b) {b' : Cpu} (ha : b'.a = b.a) (hx : b'.x = b.x) (hy : b'.y = b.y)
    (hsp : b'.sp = b.sp) (hp : b'.p = b.p) : Keeps c b' := by
  refine ⟨fun r => ?_, hsp.trans h.sp, hp.trans h.p⟩
  rw [← h.get r]
  cases r with
  | a => exact ha
  | x => exact hx
  | y => exact hy

theorem goto (h : Keeps c b) (m : MicroState) : Keeps c (b.goto m) := h.of_eq rfl rfl rfl rfl rfl

theorem read (h : Keeps c b) (address : BitVec 16) : Keeps c (b.read address) :=
  h.of_eq rfl rfl rfl rfl rfl

theorem write (h : Keeps c b) (address : BitVec 16) (data : BitVec 8) :
    Keeps c (b.write address data) := h.of_eq rfl rfl rfl rfl rfl

theorem fetch (h : Keeps c b) : Keeps c b.fetch := h.of_eq rfl rfl rfl rfl rfl

theorem set_tempAddress (h : Keeps c b) (tempAddress : BitVec 16) :
    Keeps c { b with tempAddress } := h.of_eq rfl rfl rfl rfl rfl

theorem set_tempPointer (h : Keeps c b) (tempPointer : BitVec 8) :
    Keeps c { b with tempPointer } := h.of_eq rfl rfl rfl rfl rfl

theorem index (h : Keeps c b) (mode : AddressingMode) : b.index mode = c.index mode := by
  have hx := h.get .x
  have hy := h.get .y
  cases mode <;> first | exact hx | exact hy

end Keeps

theorem Loaded.of_keeps {r : Register} {v : BitVec 8} {a b c d : Cpu} (h : Loaded r v b c)
    (hbefore : Keeps a b) (hafter : Keeps c d) : Loaded r v a d where
  register := (hafter.get r).trans h.register
  others := fun q hq => (hafter.get q).trans ((h.others q hq).trans (hbefore.get q))
  zero := hafter.p ▸ h.zero
  sign := hafter.p ▸ h.sign
  flags := fun b hzero hsign => by rw [hafter.p, h.flags b hzero hsign, hbefore.p]

/-- The last cycle of a load. -/
theorem completes_of_load {rom : Cartridge.Rom} {i : Instruction} (hi : i ∈ Instruction.table)
    (heffect : i.effect = .read) {s : State} {n : Nat} {address pc : BitVec 16}
    (h : Approaches rom i s n address pc) : Completes rom i s n address (pc + 1) := by
  obtain ⟨c, k, hkeeps, rfl, hk, hlast, hinside⟩ := h
  have haccess : c.access i address = c.read address := by simp [Cpu.access, heffect]
  rw [haccess] at hinside
  generalize hr : registerOf i.mnemonic = r
  let loaded := (c.read address).load r (peek rom s.ram address)
  have hfinish : ((c.read address).goto (.cycle i.label k)).finish i (peek rom s.ram address) =
      loaded.fetch.goto .instructionFetch := by
    rw [Cpu.finish, if_pos heffect, hr]
    cases r <;> rfl
  have hloaded := loaded_load (c.read address) r (peek rom s.ram address)
  have hrest : loaded.pc = c.pc ∧ loaded.sp = c.sp := by cases r <;> exact ⟨rfl, rfl⟩
  refine ⟨_, loaded.fetch.goto .instructionFetch, hinside.of_read rfl rfl, ?_,
    boundary_fetch .., ?_, ?_⟩
  · exact (Cpu.next?_cycle hi hk rfl _).trans ((hlast _ _).trans (congrArg some hfinish))
  · exact congrArg (· + 1) hrest.1
  · rw [after_of_read rfl]
    refine ⟨hrest.2.trans hkeeps.sp, fun _ => ⟨?_, rfl⟩, ?_, ?_, ?_, ?_⟩
    · rw [hr]
      exact hloaded.of_keeps (hkeeps.read address) ((Keeps.refl loaded).fetch.goto _)
    all_goals simp [heffect]

/-- The last cycle of a store. -/
theorem completes_of_store {rom : Cartridge.Rom} {i : Instruction} (hi : i ∈ Instruction.table)
    (heffect : i.effect = .write) {s : State} {n : Nat} {address pc : BitVec 16}
    (h : Approaches rom i s n address pc) : Completes rom i s n address (pc + 1) := by
  obtain ⟨c, k, hkeeps, rfl, hk, hlast, hinside⟩ := h
  let written := (c.write address (c.get (registerOf i.mnemonic))).goto (.cycle i.label k)
  have haccess : (c.access i address).goto (.cycle i.label k) = written := by
    simp [Cpu.access, heffect, written]
  rw [haccess] at hinside
  have hfinish : ∀ d, written.finish i d = written.fetch.goto .instructionFetch := by
    intro d
    simp [Cpu.finish, heffect]
  have hram : written.store s.ram = if address.toNat < 0x2000 then
      Function.update s.ram (address.setWidth 11) (s.cpu.get (registerOf i.mnemonic))
        else s.ram := by
    rw [← hkeeps.get]
    simp [Cpu.store, written, Cpu.write, Cpu.goto]
  refine ⟨_, written.fetch.goto .instructionFetch, hinside, ?_, boundary_fetch .., rfl, ?_⟩
  · exact (Cpu.next?_cycle hi hk rfl _).trans ((hlast _ _).trans (congrArg some (hfinish _)))
  · have hkept : Keeps s.cpu (written.fetch.goto .instructionFetch) :=
      ((hkeeps.write address _).goto _).fetch.goto _
    rw [after_of_read rfl]
    refine ⟨hkept.sp, ?_, fun _ => ⟨hkept.get, hkept.p, hram⟩, ?_, ?_, ?_⟩
    all_goals simp [heffect]

end CycleCheck.Cycle
