import Nachos.MipsPrecise

/-! The load delay slot. A pending load is done at the end of the next instruction, or before
it when an interrupt or an exception falls in between. Two machines that differ only in
registers the instruction does not read are related through its execution; the two orders
agree unless the instruction writes the register of the load. -/
namespace Nachos

/-- The registers whose contents the instruction uses. `LWL` and `LWR` merge with register
`rt` as the pending load leaves it, so `rt` is not among them. -/
def Instruction.reads (i : Instruction) : List ℕ :=
  match i.opCode with
  | .add | .addu | .and | .nor | .slt | .sltu | .sub | .subu | .xor | .sllv | .srav | .srlv | .beq
  | .bne | .div | .divu | .mult | .multu | .sb | .sh | .sw | .swl | .swr => [i.rs, i.rt]
  | .addi | .addiu | .andi | .ori | .slti | .sltiu | .xori | .or | .bgez | .bgezal | .bgtz | .blez
  | .bltz | .bltzal | .jalr | .jr | .lb | .lbu | .lh | .lhu | .lw | .lwl | .lwr | .mthi
  | .mtlo => [i.rs]
  | .sll | .sra | .srl => [i.rt]
  | _ => []

def Instruction.dest (i : Instruction) : Option ℕ :=
  match i.opCode with
  | .add | .addu | .and | .nor | .or | .slt | .sltu | .sub | .subu | .xor | .sll | .sllv | .sra
  | .srav | .srl | .srlv | .mfhi | .mflo | .jalr => some i.rd
  | .addi | .addiu | .andi | .lui | .ori | .slti | .sltiu | .xori => some i.rt
  | .bgezal | .bltzal | .jal => some retAddrReg
  | _ => none

structure Agree (D : ℕ → Prop) (m n : Machine) : Prop where
  memory : n.mainMemory = m.mainMemory
  mmu : n.mmu = m.mmu
  reg : ∀ k, ¬D k → n.reg k = m.reg k

theorem Agree.mono {D D' : ℕ → Prop} {m n : Machine} (h : Agree D m n) (hd : ∀ k, D k → D' k) :
    Agree D' m n :=
  ⟨h.memory, h.mmu, fun k hk => h.reg k fun hk' => hk (hd k hk')⟩

/-- When `x` returns from `m`, `y` returns from `n`, and the results are related. -/
def Sim {α : Type} (x y : Exec α) (m n : Machine) (Q : α → α → Machine → Machine → Prop) : Prop :=
  ∀ a m', x m = .ok a m' → ∃ b n', y n = .ok b n' ∧ Q a b m' n'

section rules
variable {α β : Type} {D : ℕ → Prop} {m n : Machine}

theorem Sim.bind {x y : Exec α} {f g : α → Exec β} {R : α → α → Machine → Machine → Prop}
    {Q : β → β → Machine → Machine → Prop} (hx : Sim x y m n R)
    (hf : ∀ a b m' n', R a b m' n' → Sim (f a) (g b) m' n' Q) : Sim (x >>= f) (y >>= g) m n Q := by
  intro c m' h
  obtain ⟨a, m₁, hxm, hfm⟩ := EStateM.bind_eq_ok h
  obtain ⟨b, n₁, hyn, hR⟩ := hx a m₁ hxm
  obtain ⟨d, n', hgn, hQ⟩ := hf a b m₁ n₁ hR c m' hfm
  refine ⟨d, n', ?_, hQ⟩
  rw [EStateM.apply_bind, hyn]
  exact hgn

theorem Sim.mono {x y : Exec α} {Q Q' : α → α → Machine → Machine → Prop} (h : Sim x y m n Q)
    (hq : ∀ a b m' n', Q a b m' n' → Q' a b m' n') : Sim x y m n Q' := by
  intro a m' hx
  obtain ⟨b, n', hy, hQ⟩ := h a m' hx
  exact ⟨b, n', hy, hq a b m' n' hQ⟩

theorem sim_pure {a b : α} {Q : α → α → Machine → Machine → Prop} (h : Q a b m n) :
    Sim (pure a) (pure b) m n Q := by
  intro c m' hx
  obtain ⟨rfl, rfl⟩ := EStateM.Result.ok.inj hx
  exact ⟨b, n, rfl, h⟩

theorem sim_raise {which : ExceptionType} {bad : Word} {y : Exec α}
    {Q : α → α → Machine → Machine → Prop} : Sim (raiseException which bad) y m n Q := by
  intro a m' hx
  obtain ⟨_, _, -, hx⟩ := EStateM.bind_eq_ok hx
  obtain ⟨_, _, -, hx⟩ := EStateM.bind_eq_ok hx
  cases hx

theorem sim_stop {t : Trap} {y : Exec α} {Q : α → α → Machine → Machine → Prop} :
    Sim (stop t) y m n Q := by
  intro a m' hx
  cases hx

theorem Sim.ite {c : Prop} [Decidable c] {x x' y y' : Exec α}
    {Q : α → α → Machine → Machine → Prop} (hx : c → Sim x x' m n Q) (hy : ¬c → Sim y y' m n Q) :
    Sim (if c then x else y) (if c then x' else y') m n Q := by
  split_ifs with h
  · exact hx h
  · exact hy h

theorem sim_readRegister (k : ℕ) :
    Sim (readRegister k) (readRegister k) m n
      (fun a b m' n' => a = m.reg k ∧ b = n.reg k ∧ m' = m ∧ n' = n) := by
  intro a m' hx
  unfold readRegister at hx ⊢
  split_ifs at hx with hk
  · obtain ⟨rfl, rfl⟩ := EStateM.Result.ok.inj hx
    exact ⟨n.reg k, n, by rw [if_pos hk], rfl, rfl, rfl, rfl⟩

theorem readRegister_ok {k : ℕ} (hk : k < numTotalRegs) : readRegister k m = .ok (m.reg k) m :=
  if_pos hk

theorem sim_readEqual {k : ℕ} (h : Agree D m n) (hk : ¬D k) :
    Sim (readRegister k) (readRegister k) m n
      (fun a b m' n' => b = a ∧ a = m.reg k ∧ Agree D m' n') := by
  refine (sim_readRegister k).mono ?_
  rintro _ _ _ _ ⟨rfl, rfl, rfl, rfl⟩
  exact ⟨h.reg k hk, rfl, h⟩

theorem sim_writeRegister (k : ℕ) (v : Word) (h : Agree D m n) :
    Sim (writeRegister k v) (writeRegister k v) m n
      (fun _ _ m' n' => Agree (fun j => D j ∧ j ≠ k) m' n') := by
  intro a m' hx
  unfold writeRegister at hx ⊢
  split_ifs at hx with hk
  · obtain ⟨-, rfl⟩ := EStateM.Result.ok.inj hx
    refine ⟨(), n.setReg k v, by rw [if_pos hk], h.memory, h.mmu, fun j hj => ?_⟩
    rw [reg_setReg, reg_setReg]
    split_ifs with hjk
    · rfl
    · by_cases hj' : j = k
      · subst hj'
        exact absurd ⟨rfl, hk⟩ hjk
      · exact h.reg j fun hd => hj ⟨hd, hj'⟩

theorem sim_translateOrRaise {addr : Word} {size : ℕ} {writing : Bool} (h : Agree D m n) :
    Sim (translateOrRaise addr size writing) (translateOrRaise addr size writing) m n
      (fun a b m' n' => b = a ∧ Agree D m' n') := by
  intro a m' hx
  unfold translateOrRaise at hx ⊢
  simp only [EStateM.apply_bind, EStateM.apply_get] at hx ⊢
  rw [h.mmu]
  cases ht : translate m.mmu addr size writing with
  | error t =>
    rw [ht] at hx
    cases hx
  | ok r =>
    rw [ht] at hx
    cases r with
    | error e =>
      obtain ⟨b, n', -, hfalse⟩ := sim_raise (y := raiseException e addr)
        (Q := fun _ _ _ _ => False) (n := n) a m' hx
      exact hfalse.elim
    | ok p =>
      obtain ⟨pa, mmu⟩ := p
      obtain ⟨rfl, rfl⟩ := EStateM.Result.ok.inj hx
      exact ⟨pa, { n with mmu := mmu }, rfl, rfl, h.memory, rfl, h.reg⟩

theorem sim_readMem {addr : Word} {size : ℕ} (h : Agree D m n) :
    Sim (readMem addr size) (readMem addr size) m n (fun a b m' n' => b = a ∧ Agree D m' n') := by
  refine (sim_translateOrRaise h).bind ?_
  rintro _ pa m₁ n₁ ⟨rfl, h₁⟩
  intro a m' hx
  simp only [EStateM.apply_bind, EStateM.apply_get] at hx ⊢
  rw [h₁.memory]
  cases hr : m₁.mainMemory.read pa size with
  | none =>
    rw [hr] at hx
    cases hx
  | some v =>
    rw [hr] at hx
    obtain ⟨rfl, rfl⟩ := EStateM.Result.ok.inj hx
    exact ⟨v, n₁, rfl, rfl, h₁⟩

theorem sim_writeMem {addr v : Word} {size : ℕ} (h : Agree D m n) :
    Sim (writeMem addr size v) (writeMem addr size v) m n (fun _ _ m' n' => Agree D m' n') := by
  refine (sim_translateOrRaise h).bind ?_
  rintro _ pa m₁ n₁ ⟨rfl, h₁⟩
  intro a m' hx
  simp only [EStateM.apply_bind, EStateM.apply_get] at hx ⊢
  split at hx
  case h_4 => cases hx
  all_goals
    cases hx
    refine ⟨(), _, rfl, ?_, h₁.mmu, h₁.reg⟩
    dsimp only
    rw [h₁.memory]

/-- What an instruction leaves: the same next program counter, and machines that agree on
the register it wrote. -/
def SimAfter (D : ℕ → Prop) (dest : Option ℕ) (a b : After) (m' n' : Machine) : Prop :=
  b.pcAfter = a.pcAfter ∧ Agree (fun k => D k ∧ dest ≠ some k) m' n'

variable {i : Instruction} {pcAfter : Word}

theorem sim_done {a b : After} (h : Agree D m n) (hpc : b.pcAfter = a.pcAfter) :
    Sim (pure a) (pure b) m n (SimAfter D none) :=
  sim_pure ⟨hpc, h.mono fun _ hk => ⟨hk, by simp⟩⟩

theorem sim_writeResult (r : ℕ) (v : Word) (h : Agree D m n) :
    Sim (do writeRegister r v; return { pcAfter := pcAfter } : Exec After)
      (do writeRegister r v; return { pcAfter := pcAfter }) m n (SimAfter D (some r)) := by
  refine (sim_writeRegister r v h).bind fun _ _ m' n' h' => sim_pure ⟨rfl, h'.mono fun k hk => ?_⟩
  exact ⟨hk.1, fun heq => hk.2 (Option.some.inj heq).symm⟩

theorem sim_writeSpecial (r : ℕ) (v : Word) (h : Agree D m n) :
    Sim (do writeRegister r v; return { pcAfter := pcAfter } : Exec After)
      (do writeRegister r v; return { pcAfter := pcAfter }) m n (SimAfter D none) := by
  refine (sim_writeRegister r v h).bind fun _ _ m' n' h' => sim_pure ⟨rfl, h'.mono fun k hk => ?_⟩
  exact ⟨hk.1, by simp⟩

theorem sim_alu (f : Word → Word → Word) (h : Agree D m n)
    (hf : f (n.reg i.rs) (n.reg i.rt) = f (m.reg i.rs) (m.reg i.rt)) :
    Sim (alu i pcAfter f) (alu i pcAfter f) m n (SimAfter D (some i.rd)) := by
  refine (sim_readRegister i.rs).bind ?_
  rintro _ _ m₁ n₁ ⟨rfl, rfl, rfl, rfl⟩
  refine (sim_readRegister i.rt).bind ?_
  rintro _ _ m₂ n₂ ⟨rfl, rfl, rfl, rfl⟩
  rw [hf]
  exact sim_writeResult _ _ h

theorem sim_aluImm (f : Word → Word) (h : Agree D m n) (hf : f (n.reg i.rs) = f (m.reg i.rs)) :
    Sim (aluImm i pcAfter f) (aluImm i pcAfter f) m n (SimAfter D (some i.rt)) := by
  refine (sim_readRegister i.rs).bind ?_
  rintro _ _ m₁ n₁ ⟨rfl, rfl, rfl, rfl⟩
  rw [hf]
  exact sim_writeResult _ _ h

theorem sim_branch (taken : Bool) (h : Agree D m n) (hn : ¬D nextPCReg) :
    Sim (branch i pcAfter taken) (branch i pcAfter taken) m n (SimAfter D none) := by
  refine (sim_readEqual h hn).bind ?_
  rintro _ _ m₁ n₁ ⟨rfl, -, h₁⟩
  exact sim_done h₁ rfl

theorem sim_link (r : ℕ) (h : Agree D m n) (hn : ¬D nextPCReg) :
    Sim (link r) (link r) m n (fun _ _ m' n' => Agree (fun k => D k ∧ k ≠ r) m' n') := by
  refine (sim_readEqual h hn).bind ?_
  rintro _ _ m₁ n₁ ⟨rfl, -, h₁⟩
  exact sim_writeRegister r _ h₁

theorem sim_setHiLo (hi lo : Word) (h : Agree D m n) :
    Sim (setHiLo hi lo pcAfter) (setHiLo hi lo pcAfter) m n (SimAfter D none) := by
  refine (sim_writeRegister loReg lo h).bind fun _ _ m₁ n₁ h₁ => ?_
  exact sim_writeSpecial hiReg hi (h₁.mono fun k hk => hk.1)

theorem sim_effectiveAddress (h : Agree D m n) (hrs : ¬D i.rs) :
    Sim (effectiveAddress i) (effectiveAddress i) m n (fun a b m' n' => b = a ∧ Agree D m' n') := by
  refine (sim_readEqual h hrs).bind ?_
  rintro _ _ m₁ n₁ ⟨rfl, -, h₁⟩
  exact sim_pure ⟨rfl, h₁⟩

theorem sim_pendingValue {r : ℕ} (hr : r < 32) (h : Agree D m n) :
    Sim (pendingValue r) (pendingValue r) m n (fun _ _ m' n' => Agree D m' n') := by
  intro a m' hx
  have hm : m' = m := by
    obtain ⟨t, m₁, ht, hx⟩ := EStateM.bind_eq_ok hx
    simp only [readRegister, loadReg, numTotalRegs, Nat.reduceLT, if_true] at ht
    obtain ⟨-, rfl⟩ := EStateM.Result.ok.inj ht
    rw [EStateM.apply_ite] at hx
    unfold readRegister at hx
    split_ifs at hx <;> exact (EStateM.Result.ok.inj hx).2.symm
  subst hm
  have hr' : r < numTotalRegs := by
    simp only [numTotalRegs]
    omega
  refine ⟨if n.reg loadReg = BitVec.ofNat 32 r then n.reg loadValueReg else n.reg r, n, ?_, h⟩
  rw [pendingValue, EStateM.apply_bind, readRegister_ok (by decide)]
  simp only [EStateM.apply_ite, readRegister_ok hr',
    readRegister_ok (show loadValueReg < numTotalRegs by decide)]
  split_ifs <;> rfl

theorem sim_assertAligned (a : Word) (h : Agree D m n) :
    Sim (assertAligned a) (assertAligned a) m n (fun _ _ m' n' => Agree D m' n') :=
  Sim.ite (fun _ => sim_pure h) fun _ => sim_stop

/-- Every case of the switch, on machines that agree on what the instruction reads. -/
theorem sim_execute (h : Agree D m n) (hreads : ∀ k ∈ i.reads, ¬D k) (hrt : i.rt < 32)
    (hn : ¬D nextPCReg) (hhi : ¬D hiReg) (hlo : ¬D loReg) :
    Sim (execute i pcAfter) (execute i pcAfter) m n (SimAfter D i.dest) := by
  obtain ⟨op, rs, rt, rd, extra⟩ := i
  have hreg : ∀ k ∈ (⟨op, rs, rt, rd, extra⟩ : Instruction).reads, n.reg k = m.reg k :=
    fun k hk => h.reg k (hreads k hk)
  cases op
  case addu | and | nor | slt | sltu | subu | xor | sllv | srav | srlv =>
    exact sim_alu _ h (by rw [hreg rs (by simp [Instruction.reads]),
      hreg rt (by simp [Instruction.reads])])
  case or => exact sim_alu _ h (by rw [hreg rs (by simp [Instruction.reads])])
  case sll | sra | srl => exact sim_alu _ h (by rw [hreg rt (by simp [Instruction.reads])])
  case addiu | andi | ori | slti | sltiu | xori =>
    exact sim_aluImm _ h (by rw [hreg rs (by simp [Instruction.reads])])
  case lui => exact sim_aluImm _ h rfl
  case mfhi =>
    refine (sim_readEqual h hhi).bind ?_
    rintro _ _ m₁ n₁ ⟨rfl, -, h₁⟩
    exact sim_writeResult _ _ h₁
  case mflo =>
    refine (sim_readEqual h hlo).bind ?_
    rintro _ _ m₁ n₁ ⟨rfl, -, h₁⟩
    exact sim_writeResult _ _ h₁
  case mthi | mtlo =>
    refine (sim_readEqual h (hreads rs (by simp [Instruction.reads]))).bind ?_
    rintro _ _ m₁ n₁ ⟨rfl, -, h₁⟩
    exact sim_writeSpecial _ _ h₁
  case add | sub =>
    refine (sim_readEqual h (hreads rs (by simp [Instruction.reads]))).bind ?_
    rintro _ _ m₁ n₁ ⟨rfl, -, h₁⟩
    refine (sim_readEqual h₁ (hreads rt (by simp [Instruction.reads]))).bind ?_
    rintro _ _ m₂ n₂ ⟨rfl, -, h₂⟩
    exact Sim.ite (fun _ => sim_raise) fun _ => sim_writeResult _ _ h₂
  case addi =>
    refine (sim_readEqual h (hreads rs (by simp [Instruction.reads]))).bind ?_
    rintro _ _ m₁ n₁ ⟨rfl, -, h₁⟩
    exact Sim.ite (fun _ => sim_raise) fun _ => sim_writeResult _ _ h₁
  case beq | bne =>
    refine (sim_readEqual h (hreads rs (by simp [Instruction.reads]))).bind ?_
    rintro _ _ m₁ n₁ ⟨rfl, -, h₁⟩
    refine (sim_readEqual h₁ (hreads rt (by simp [Instruction.reads]))).bind ?_
    rintro _ _ m₂ n₂ ⟨rfl, -, h₂⟩
    exact sim_branch _ h₂ hn
  case bgez | bgtz | blez | bltz =>
    refine (sim_readEqual h (hreads rs (by simp [Instruction.reads]))).bind ?_
    rintro _ _ m₁ n₁ ⟨rfl, -, h₁⟩
    exact sim_branch _ h₁ hn
  case bgezal | bltzal =>
    refine (sim_link retAddrReg h hn).bind fun _ _ m₁ n₁ h₁ => ?_
    refine (sim_readEqual h₁ fun hd => hreads rs (by simp [Instruction.reads]) hd.1).bind ?_
    rintro _ _ m₂ n₂ ⟨rfl, -, h₂⟩
    refine (sim_branch _ h₂ fun hd => hn hd.1).mono fun a b m' n' hab => ⟨hab.1, hab.2.mono ?_⟩
    rintro k ⟨⟨hk, hne⟩, -⟩
    exact ⟨hk, fun heq => hne (Option.some.inj heq).symm⟩
  case div =>
    refine (sim_readEqual h (hreads rs (by simp [Instruction.reads]))).bind ?_
    rintro _ _ m₁ n₁ ⟨rfl, -, h₁⟩
    refine (sim_readEqual h₁ (hreads rt (by simp [Instruction.reads]))).bind ?_
    rintro _ _ m₂ n₂ ⟨rfl, -, h₂⟩
    exact Sim.ite (fun _ => sim_setHiLo _ _ h₂) fun _ =>
      Sim.ite (fun _ => sim_stop) fun _ => sim_setHiLo _ _ h₂
  case divu =>
    refine (sim_readEqual h (hreads rs (by simp [Instruction.reads]))).bind ?_
    rintro _ _ m₁ n₁ ⟨rfl, -, h₁⟩
    refine (sim_readEqual h₁ (hreads rt (by simp [Instruction.reads]))).bind ?_
    rintro _ _ m₂ n₂ ⟨rfl, -, h₂⟩
    exact Sim.ite (fun _ => sim_setHiLo _ _ h₂) fun _ => sim_setHiLo _ _ h₂
  case mult | multu =>
    refine (sim_readEqual h (hreads rs (by simp [Instruction.reads]))).bind ?_
    rintro _ _ m₁ n₁ ⟨rfl, -, h₁⟩
    refine (sim_readEqual h₁ (hreads rt (by simp [Instruction.reads]))).bind ?_
    rintro _ _ m₂ n₂ ⟨rfl, -, h₂⟩
    exact sim_setHiLo _ _ h₂
  case j => exact sim_done h rfl
  case jal =>
    refine (sim_link retAddrReg h hn).bind fun _ _ m₁ n₁ h₁ => sim_pure ⟨rfl, h₁.mono ?_⟩
    rintro k ⟨hk, hne⟩
    exact ⟨hk, fun heq => hne (Option.some.inj heq).symm⟩
  case jalr =>
    refine (sim_link rd h hn).bind fun _ _ m₁ n₁ h₁ => ?_
    refine (sim_readEqual h₁ fun hd => hreads rs (by simp [Instruction.reads]) hd.1).bind ?_
    rintro _ _ m₂ n₂ ⟨rfl, -, h₂⟩
    refine sim_pure ⟨rfl, h₂.mono ?_⟩
    rintro k ⟨hk, hne⟩
    exact ⟨hk, fun heq => hne (Option.some.inj heq).symm⟩
  case jr =>
    refine (sim_readEqual h (hreads rs (by simp [Instruction.reads]))).bind ?_
    rintro _ _ m₁ n₁ ⟨rfl, -, h₁⟩
    exact sim_done h₁ rfl
  case lb | lbu =>
    refine (sim_effectiveAddress h (hreads rs (by simp [Instruction.reads]))).bind ?_
    rintro _ _ m₁ n₁ ⟨rfl, h₁⟩
    refine (sim_readMem h₁).bind ?_
    rintro _ _ m₂ n₂ ⟨rfl, h₂⟩
    exact sim_done h₂ rfl
  case lh | lhu | lw =>
    refine (sim_effectiveAddress h (hreads rs (by simp [Instruction.reads]))).bind ?_
    rintro _ _ m₁ n₁ ⟨rfl, h₁⟩
    refine Sim.ite (fun _ => sim_raise) fun _ => (sim_readMem h₁).bind ?_
    rintro _ _ m₂ n₂ ⟨rfl, h₂⟩
    exact sim_done h₂ rfl
  case lwl | lwr =>
    refine (sim_effectiveAddress h (hreads rs (by simp [Instruction.reads]))).bind ?_
    rintro _ _ m₁ n₁ ⟨rfl, h₁⟩
    refine (sim_assertAligned _ h₁).bind fun _ _ m₂ n₂ h₂ => (sim_readMem h₂).bind ?_
    rintro _ _ m₃ n₃ ⟨rfl, h₃⟩
    exact (sim_pendingValue hrt h₃).bind fun _ _ m₄ n₄ h₄ => sim_done h₄ rfl
  case sb | sh | sw =>
    refine (sim_readEqual h (hreads rt (by simp [Instruction.reads]))).bind ?_
    rintro _ _ m₁ n₁ ⟨rfl, -, h₁⟩
    refine (sim_effectiveAddress h₁ (hreads rs (by simp [Instruction.reads]))).bind ?_
    rintro _ _ m₂ n₂ ⟨rfl, h₂⟩
    exact (sim_writeMem h₂).bind fun _ _ m₃ n₃ h₃ => sim_done h₃ rfl
  case swl | swr =>
    refine (sim_effectiveAddress h (hreads rs (by simp [Instruction.reads]))).bind ?_
    rintro _ _ m₁ n₁ ⟨rfl, h₁⟩
    refine (sim_assertAligned _ h₁).bind fun _ _ m₂ n₂ h₂ => (sim_readMem h₂).bind ?_
    rintro _ _ m₃ n₃ ⟨rfl, h₃⟩
    refine (sim_readEqual h₃ (hreads rt (by simp [Instruction.reads]))).bind ?_
    rintro _ _ m₄ n₄ ⟨rfl, -, h₄⟩
    exact (sim_writeMem h₄).bind fun _ _ m₅ n₅ h₅ => sim_done h₅ rfl
  case syscall | res | unimp => exact sim_raise
  case rfe | special | bcond => exact sim_stop

end rules

def Leaves {α : Type} (W : ℕ → Prop) (x : Exec α) : Prop :=
  ∀ m a m', x m = .ok a m' → ∀ k, ¬W k → m'.reg k = m.reg k

section frame
variable {α β : Type} {W : ℕ → Prop}

theorem Leaves.bind {x : Exec α} {f : α → Exec β} (hx : Leaves W x) (hf : ∀ a, Leaves W (f a)) :
    Leaves W (x >>= f) := by
  intro m b m' h k hk
  obtain ⟨a, m₁, hxm, hfm⟩ := EStateM.bind_eq_ok h
  rw [hf a m₁ b m' hfm k hk, hx m a m₁ hxm k hk]

theorem leaves_pure (a : α) : Leaves W (pure a : Exec α) := by
  intro m b m' h k _
  rw [(EStateM.Result.ok.inj h).2]

theorem leaves_raise {which : ExceptionType} {bad : Word} :
    Leaves W (raiseException which bad : Exec α) := by
  intro m a m' h
  obtain ⟨_, _, _, hfalse⟩ := sim_raise (y := raiseException which bad)
    (Q := fun _ _ _ _ => False) (n := m) a m' h
  exact hfalse.elim

theorem leaves_stop {t : Trap} : Leaves W (stop t : Exec α) := fun _ _ _ h => nomatch h

theorem Leaves.ite {c : Prop} [Decidable c] {x y : Exec α} (hx : Leaves W x) (hy : Leaves W y) :
    Leaves W (if c then x else y) := by
  split_ifs
  · exact hx
  · exact hy

theorem leaves_readRegister (i : ℕ) : Leaves W (readRegister i) := by
  intro m a m' h k _
  unfold readRegister at h
  split_ifs at h
  rw [(EStateM.Result.ok.inj h).2]

theorem leaves_writeRegister {i : ℕ} {v : Word} (hi : W i) : Leaves W (writeRegister i v) := by
  intro m a m' h k hk
  unfold writeRegister at h
  split_ifs at h
  rw [← (EStateM.Result.ok.inj h).2, reg_setReg, if_neg]
  rintro ⟨rfl, -⟩
  exact hk hi

theorem leaves_translateOrRaise {addr : Word} {size : ℕ} {writing : Bool} :
    Leaves W (translateOrRaise addr size writing) := by
  intro m a m' h k hk
  unfold translateOrRaise at h
  simp only [EStateM.apply_bind, EStateM.apply_get] at h
  cases ht : translate m.mmu addr size writing with
  | error t =>
    rw [ht] at h
    cases h
  | ok r =>
    rw [ht] at h
    cases r with
    | error e => exact leaves_raise (W := W) m a m' h k hk
    | ok p =>
      obtain ⟨pa, mmu⟩ := p
      obtain ⟨-, rfl⟩ := EStateM.Result.ok.inj h
      rfl

theorem leaves_readMem {addr : Word} {size : ℕ} : Leaves W (readMem addr size) := by
  refine leaves_translateOrRaise.bind fun pa m a m' h k _ => ?_
  simp only [EStateM.apply_bind, EStateM.apply_get] at h
  cases hr : m.mainMemory.read pa size with
  | none =>
    rw [hr] at h
    cases h
  | some v =>
    rw [hr] at h
    rw [(EStateM.Result.ok.inj h).2]

theorem leaves_writeMem {addr v : Word} {size : ℕ} : Leaves W (writeMem addr size v) := by
  refine leaves_translateOrRaise.bind fun pa m a m' h k _ => ?_
  simp only [EStateM.apply_bind, EStateM.apply_get] at h
  split at h
  case h_4 => cases h
  all_goals
    cases h
    rfl

variable {i : Instruction} {pcAfter : Word}

theorem leaves_writeResult {r : ℕ} {v : Word} (hr : W r) :
    Leaves W (do writeRegister r v; return { pcAfter := pcAfter } : Exec After) :=
  (leaves_writeRegister hr).bind fun _ => leaves_pure _

theorem leaves_alu {f : Word → Word → Word} (hr : W i.rd) : Leaves W (alu i pcAfter f) :=
  (leaves_readRegister _).bind fun _ => (leaves_readRegister _).bind fun _ => leaves_writeResult hr

theorem leaves_aluImm {f : Word → Word} (hr : W i.rt) : Leaves W (aluImm i pcAfter f) :=
  (leaves_readRegister _).bind fun _ => leaves_writeResult hr

theorem leaves_branch {taken : Bool} : Leaves W (branch i pcAfter taken) :=
  (leaves_readRegister _).bind fun _ => leaves_pure _

theorem leaves_link {r : ℕ} (hr : W r) : Leaves W (link r) :=
  (leaves_readRegister _).bind fun _ => leaves_writeRegister hr

theorem leaves_setHiLo {hi lo : Word} (hh : W hiReg) (hl : W loReg) :
    Leaves W (setHiLo hi lo pcAfter) :=
  (leaves_writeRegister hl).bind fun _ => leaves_writeResult hh

theorem leaves_effectiveAddress : Leaves W (effectiveAddress i) :=
  (leaves_readRegister _).bind fun _ => leaves_pure _

theorem leaves_pendingValue {r : ℕ} : Leaves W (pendingValue r) :=
  (leaves_readRegister _).bind fun _ => (leaves_readRegister _).ite (leaves_readRegister _)

theorem leaves_assertAligned {a : Word} : Leaves W (assertAligned a) :=
  (leaves_pure ()).ite leaves_stop

theorem leaves_execute :
    Leaves (fun k => k = hiReg ∨ k = loReg ∨ i.dest = some k) (execute i pcAfter) := by
  obtain ⟨op, rs, rt, rd, extra⟩ := i
  cases op
  case addu | and | nor | or | sll | sllv | slt | sltu | sra | srav | srl | srlv | subu | xor =>
    exact leaves_alu (.inr (.inr rfl))
  case addiu | andi | lui | ori | slti | sltiu | xori => exact leaves_aluImm (.inr (.inr rfl))
  case mfhi | mflo =>
    exact (leaves_readRegister _).bind fun _ => leaves_writeResult (.inr (.inr rfl))
  case mthi => exact (leaves_readRegister _).bind fun _ => leaves_writeResult (.inl rfl)
  case mtlo => exact (leaves_readRegister _).bind fun _ => leaves_writeResult (.inr (.inl rfl))
  case add | sub =>
    exact (leaves_readRegister _).bind fun _ => (leaves_readRegister _).bind fun _ =>
      leaves_raise.ite (leaves_writeResult (.inr (.inr rfl)))
  case addi =>
    exact (leaves_readRegister _).bind fun _ =>
      leaves_raise.ite (leaves_writeResult (.inr (.inr rfl)))
  case beq | bne =>
    exact (leaves_readRegister _).bind fun _ => (leaves_readRegister _).bind fun _ => leaves_branch
  case bgez | bgtz | blez | bltz => exact (leaves_readRegister _).bind fun _ => leaves_branch
  case bgezal | bltzal =>
    exact (leaves_link (.inr (.inr rfl))).bind fun _ => (leaves_readRegister _).bind fun _ =>
      leaves_branch
  case div =>
    exact (leaves_readRegister _).bind fun _ => (leaves_readRegister _).bind fun _ =>
      (leaves_setHiLo (.inl rfl) (.inr (.inl rfl))).ite
        (leaves_stop.ite (leaves_setHiLo (.inl rfl) (.inr (.inl rfl))))
  case divu =>
    exact (leaves_readRegister _).bind fun _ => (leaves_readRegister _).bind fun _ =>
      (leaves_setHiLo (.inl rfl) (.inr (.inl rfl))).ite
        (leaves_setHiLo (.inl rfl) (.inr (.inl rfl)))
  case mult | multu =>
    exact (leaves_readRegister _).bind fun _ => (leaves_readRegister _).bind fun _ =>
      leaves_setHiLo (.inl rfl) (.inr (.inl rfl))
  case j => exact leaves_pure _
  case jal => exact (leaves_link (.inr (.inr rfl))).bind fun _ => leaves_pure _
  case jalr =>
    exact (leaves_link (.inr (.inr rfl))).bind fun _ => (leaves_readRegister _).bind fun _ =>
      leaves_pure _
  case jr => exact (leaves_readRegister _).bind fun _ => leaves_pure _
  case lb | lbu =>
    exact leaves_effectiveAddress.bind fun _ => leaves_readMem.bind fun _ => leaves_pure _
  case lh | lhu | lw =>
    exact leaves_effectiveAddress.bind fun _ => leaves_raise.ite
      (leaves_readMem.bind fun _ => leaves_pure _)
  case lwl | lwr =>
    exact leaves_effectiveAddress.bind fun _ => leaves_assertAligned.bind fun _ =>
      leaves_readMem.bind fun _ => leaves_pendingValue.bind fun _ => leaves_pure _
  case sb | sh | sw =>
    exact (leaves_readRegister _).bind fun _ => leaves_effectiveAddress.bind fun _ =>
      leaves_writeMem.bind fun _ => leaves_pure _
  case swl | swr =>
    exact leaves_effectiveAddress.bind fun _ => leaves_assertAligned.bind fun _ =>
      leaves_readMem.bind fun _ => (leaves_readRegister _).bind fun _ =>
        leaves_writeMem.bind fun _ => leaves_pure _
  case syscall | res | unimp => exact leaves_raise
  case rfe | special | bcond => exact leaves_stop

end frame

def finishReg (m : Machine) (a : After) (k : ℕ) : Word :=
  if k = nextPCReg then a.pcAfter
  else if k = pcReg then m.reg nextPCReg
  else if k = prevPCReg then m.reg pcReg
  else if k = 0 then 0
  else if k = loadValueReg then a.nextLoadValue
  else if k = loadReg then a.nextLoadReg
  else if k = (m.reg loadReg).toNat then m.reg loadValueReg
  else m.reg k

theorem finishReg_general {m : Machine} {a : After} {k : ℕ} (h0 : k ≠ 0) (hk : k < 34) :
    finishReg m a k = if k = (m.reg loadReg).toNat then m.reg loadValueReg else m.reg k := by
  rw [finishReg, if_neg (show k ≠ 35 by omega), if_neg (show k ≠ 34 by omega),
    if_neg (show k ≠ 36 by omega), if_neg h0, if_neg (show k ≠ 38 by omega),
    if_neg (show k ≠ 37 by omega)]

theorem finishInstruction_eq {m : Machine} (a : After) (hl : LoadInRange m) :
    ∃ m', finishInstruction a m = .ok () m' ∧ m'.mainMemory = m.mainMemory ∧
      ∀ k < numTotalRegs, m'.reg k = finishReg m a k := by
  have ht : (m.reg loadReg).toNat < 32 := hl
  obtain ⟨d, hd⟩ : ∃ d, d = (((m.setReg (m.reg loadReg).toNat (m.reg loadValueReg)).setReg
    loadReg a.nextLoadReg).setReg loadValueReg a.nextLoadValue).setReg 0 0 := ⟨_, rfl⟩
  refine ⟨((d.setReg prevPCReg (d.reg pcReg)).setReg pcReg
    ((d.setReg prevPCReg (d.reg pcReg)).reg nextPCReg)).setReg nextPCReg a.pcAfter, ?_, ?_,
    fun k hk => ?_⟩
  · rw [finishInstruction, EStateM.apply_bind, delayedLoad_eq _ _ hl, ← hd]
    rfl
  · rw [hd]
    rfl
  · have hdreg : ∀ j < numTotalRegs, d.reg j = if j = 0 then 0
        else if j = loadValueReg then a.nextLoadValue else if j = loadReg then a.nextLoadReg
        else if j = (m.reg loadReg).toNat then m.reg loadValueReg else m.reg j := by
      intro j hj
      rw [hd]
      simp only [reg_setReg, hj, and_true]
    have hpc : d.reg pcReg = m.reg pcReg := by
      rw [hdreg _ (by decide), if_neg (by decide), if_neg (by decide), if_neg (by decide), if_neg]
      simp only [pcReg]
      omega
    have hnext : (d.setReg prevPCReg (d.reg pcReg)).reg nextPCReg = m.reg nextPCReg := by
      rw [reg_setReg, if_neg (by decide), hdreg _ (by decide), if_neg (by decide),
        if_neg (by decide), if_neg (by decide), if_neg]
      simp only [nextPCReg]
      omega
    rw [hnext, hpc]
    simp only [reg_setReg, hk, and_true, hdreg k hk, finishReg]

/-- The same general registers, `HI`, `LO`, program counters and memory: the registers up to
`PrevPCReg`. -/
def SameState (m n : Machine) : Prop :=
  m.mainMemory = n.mainMemory ∧ ∀ k ≤ prevPCReg, m.reg k = n.reg k

theorem reads_lt {raw : Word} {k : ℕ} (h : k ∈ (decode raw).reads) : k < 32 := by
  have hrs := decode_rs_lt raw
  have hrt := decode_rt_lt raw
  have hk : k = (decode raw).rs ∨ k = (decode raw).rt := by
    unfold Instruction.reads at h
    split at h <;> simp at h <;> tauto
  omega

theorem dest_lt {raw : Word} {k : ℕ} (h : (decode raw).dest = some k) : k < 32 := by
  have hrd := decode_rd_lt raw
  have hrt := decode_rt_lt raw
  have hk : k = (decode raw).rd ∨ k = (decode raw).rt ∨ k = 31 := by
    unfold Instruction.dest at h
    split at h <;> simp at h <;> tauto
  omega

def instructionBody : Exec After := do
  let raw ← fetch
  let next ← readRegister nextPCReg
  execute (decode raw) (next + 4)

theorem oneInstruction_eq : oneInstruction = instructionBody >>= finishInstruction := by
  unfold oneInstruction instructionBody
  simp only [bind_assoc]

section slot
variable {m m₁ : Machine} {raw : Word}

theorem fetch_agree {D : ℕ → Prop} {n : Machine} (h : Agree D m n) (hfetch : fetch m = .ok raw m₁)
    (hd : ¬D pcReg) : ∃ n₁, fetch n = .ok raw n₁ ∧ Agree D m₁ n₁ := by
  have hsim : Sim fetch fetch m n (fun a b m' n' => b = a ∧ Agree D m' n') := by
    refine (sim_readEqual h hd).bind ?_
    rintro _ _ m₂ n₂ ⟨rfl, -, h₂⟩
    exact sim_readMem h₂
  obtain ⟨_, n₁, hn, rfl, h₁⟩ := hsim raw m₁ hfetch
  exact ⟨n₁, hn, h₁⟩

theorem sim_body {D : ℕ → Prop} {n : Machine} (h : Agree D m n) (hfetch : fetch m = .ok raw m₁)
    (hreads : ∀ k ∈ (decode raw).reads, ¬D k) (hd : ∀ k, hiReg ≤ k → k ≤ nextPCReg → ¬D k) :
    Sim instructionBody instructionBody m n (SimAfter D (decode raw).dest) := by
  have hf : Sim fetch fetch m n (fun a b m' n' => a = raw ∧ b = raw ∧ Agree D m' n') := by
    intro a m' hx
    obtain ⟨n₁, hn, h₁⟩ := fetch_agree h hfetch (hd pcReg (by decide) (by decide))
    rw [hfetch] at hx
    obtain ⟨rfl, rfl⟩ := EStateM.Result.ok.inj hx
    exact ⟨_, n₁, hn, rfl, rfl, h₁⟩
  refine hf.bind ?_
  rintro _ _ m₂ n₂ ⟨rfl, rfl, h₂⟩
  refine (sim_readEqual h₂ (hd nextPCReg (by decide) le_rfl)).bind ?_
  rintro _ _ m₃ n₃ ⟨rfl, -, h₃⟩
  exact sim_execute h₃ hreads (decode_rt_lt _) (hd nextPCReg (by decide) le_rfl)
    (hd hiReg le_rfl (by decide)) (hd loReg (by decide) (by decide))

theorem body_leaves {m' : Machine} {a : After} (hfetch : fetch m = .ok raw m₁)
    (h : instructionBody m = .ok a m') {k : ℕ} (hhi : k ≠ hiReg) (hlo : k ≠ loReg)
    (hdest : (decode raw).dest ≠ some k) : m'.reg k = m.reg k := by
  obtain ⟨raw', m₂, hf, h⟩ := EStateM.bind_eq_ok h
  have hleave : Leaves (fun _ => False) fetch :=
    (leaves_readRegister _).bind fun _ => leaves_readMem
  have hk := hleave m raw' m₂ hf k id
  rw [hfetch] at hf
  obtain ⟨rfl, rfl⟩ := EStateM.Result.ok.inj hf
  obtain ⟨next, m₃, hn, h⟩ := EStateM.bind_eq_ok h
  rw [readRegister_ok (by decide)] at hn
  obtain ⟨-, rfl⟩ := EStateM.Result.ok.inj hn
  rw [← hk]
  exact leaves_execute _ a m' h k (by tauto)

def loaded (m : Machine) : Machine :=
  (((m.setReg (m.reg loadReg).toNat (m.reg loadValueReg)).setReg loadReg 0).setReg
    loadValueReg 0).setReg 0 0

theorem loaded_reg (m : Machine) {k : ℕ} (hk : k < numTotalRegs) :
    (loaded m).reg k = if k = 0 then 0 else if k = loadValueReg then 0 else if k = loadReg then 0
      else if k = (m.reg loadReg).toNat then m.reg loadValueReg else m.reg k := by
  simp only [loaded, reg_setReg, hk, and_true]

theorem agree_loaded (h0 : m.reg 0 = 0) (v : Word) :
    Agree (fun k => k = (m.reg loadReg).toNat ∨ k = loadReg ∨ k = loadValueReg) m
      (loaded (m.setReg loadValueReg v)) := by
  have hload : (m.setReg loadValueReg v).reg loadReg = m.reg loadReg := by
    rw [reg_setReg, if_neg (by decide)]
  refine ⟨rfl, rfl, fun k hk => ?_⟩
  obtain ⟨hr, hk37, hk38⟩ : k ≠ (m.reg loadReg).toNat ∧ k ≠ loadReg ∧ k ≠ loadValueReg := by tauto
  by_cases hlt : k < numTotalRegs
  · rw [loaded_reg _ hlt, hload, if_neg hk38, if_neg hk37, if_neg hr]
    split_ifs with hk0
    · rw [hk0, h0]
    · rw [reg_setReg, if_neg fun h => hk38 h.1]
  · simp only [Machine.reg, dif_neg hlt]

/-- Both orders return, and they differ at most in the register of the load. -/
theorem slot_runs {m' : Machine} (hl : LoadInRange m) (h0 : m.reg 0 = 0)
    (hfetch : fetch m = .ok raw m₁) (hread : (m.reg loadReg).toNat ∉ (decode raw).reads)
    (hrun : oneInstruction m = .ok () m') :
    ∃ m₂, ∀ v, ∃ n₂ a b, oneInstruction (m.setReg loadValueReg v) = .ok () a ∧
      (do delayedLoad 0 0; oneInstruction) (m.setReg loadValueReg v) = .ok () b ∧
      Agree (fun k => (k = (m.reg loadReg).toNat ∨ k = loadReg ∨ k = loadValueReg) ∧
        (decode raw).dest ≠ some k) m₂ n₂ ∧
      ((decode raw).dest ≠ some (m.reg loadReg).toNat → (m.reg loadReg).toNat ≠ 0 →
        n₂.reg (m.reg loadReg).toNat = v) ∧
      (SameState a b ↔ ((m.reg loadReg).toNat ≠ 0 → n₂.reg (m.reg loadReg).toNat = v)) := by
  have hr : (m.reg loadReg).toNat < 32 := hl
  rw [oneInstruction_eq] at hrun
  obtain ⟨after, m₂, hbody, -⟩ := EStateM.bind_eq_ok hrun
  refine ⟨m₂, fun v => ?_⟩
  have hlv : (m.setReg loadValueReg v).reg loadReg = m.reg loadReg := by
    rw [reg_setReg, if_neg (by decide)]
  have hvv : (m.setReg loadValueReg v).reg loadValueReg = v := by
    rw [reg_setReg, if_pos ⟨rfl, by decide⟩]
  -- the pending value is not used before the end of the instruction
  have hagv : Agree (fun k => k = loadValueReg) m (m.setReg loadValueReg v) :=
    ⟨rfl, rfl, fun k hk => by rw [reg_setReg, if_neg fun h => hk h.1]⟩
  obtain ⟨av, mv, hbodyv, hpcv, hmv⟩ := sim_body hagv hfetch
    (fun k hk heq => by have := reads_lt hk; simp only [heq, loadValueReg] at this; omega)
    (fun k h1 h2 heq => by simp only [heq, loadValueReg, nextPCReg] at h2; omega) after m₂ hbody
  obtain ⟨an, nv, hbodyn, hpcn, hnv⟩ := sim_body (agree_loaded h0 v) hfetch
    (fun k hk => by
      rintro (rfl | rfl | rfl)
      · exact hread hk
      · exact absurd (reads_lt hk) (by decide)
      · exact absurd (reads_lt hk) (by decide))
    (fun k h1 h2 => by
      rintro (rfl | rfl | rfl)
      · simp only [hiReg] at h1
        omega
      · exact absurd h2 (by decide)
      · exact absurd h2 (by decide)) after m₂ hbody
  have hd37 : ∀ k, 32 ≤ k → (decode raw).dest ≠ some k := fun k hk h => by
    have := dest_lt h
    omega
  obtain ⟨mf, hfetchv, -⟩ := fetch_agree hagv hfetch (by decide)
  obtain ⟨nf, hfetchn, -⟩ := fetch_agree (agree_loaded h0 v) hfetch (by
    simp only [pcReg, loadReg, loadValueReg] at hr ⊢
    omega)
  have hleavev : ∀ k, 36 ≤ k → mv.reg k = (m.setReg loadValueReg v).reg k := fun k hk =>
    body_leaves hfetchv hbodyv (by simp only [hiReg]; omega) (by simp only [loReg]; omega)
      (hd37 k (by omega))
  have hleaven : ∀ k, 36 ≤ k → nv.reg k = (loaded (m.setReg loadValueReg v)).reg k := fun k hk =>
    body_leaves hfetchn hbodyn (by simp only [hiReg]; omega) (by simp only [loReg]; omega)
      (hd37 k (by omega))
  have hmv37 : mv.reg loadReg = m.reg loadReg := (hleavev _ (by decide)).trans hlv
  have hmv38 : mv.reg loadValueReg = v := (hleavev _ (by decide)).trans hvv
  have hnv37 : nv.reg loadReg = 0 := by
    rw [hleaven _ (by decide), loaded_reg _ (by decide), if_neg (by decide), if_neg (by decide),
      if_pos rfl]
  have hnv38 : nv.reg loadValueReg = 0 := by
    rw [hleaven _ (by decide), loaded_reg _ (by decide), if_neg (by decide), if_pos rfl]
  obtain ⟨a, hfa, hma, hra⟩ :=
    finishInstruction_eq av (m := mv) (by rw [LoadInRange, hmv37]; exact hl)
  obtain ⟨b, hfb, hmb, hrb⟩ :=
    finishInstruction_eq an (m := nv) (by rw [LoadInRange, hnv37]; decide)
  have hl' : LoadInRange (m.setReg loadValueReg v) := by rw [LoadInRange, hlv]; exact hl
  refine ⟨nv, a, b, ?_, ?_, hnv, fun hdest hne => ?_, ?_⟩
  · rw [oneInstruction_eq, EStateM.apply_bind, hbodyv]
    exact hfa
  · rw [EStateM.apply_bind, delayedLoad_eq 0 0 hl', oneInstruction_eq]
    show (instructionBody >>= finishInstruction) (loaded (m.setReg loadValueReg v)) = _
    rw [EStateM.apply_bind, hbodyn]
    exact hfb
  · rw [body_leaves hfetchn hbodyn (by simp only [hiReg]; omega)
      (by simp only [loReg]; omega) hdest,
      loaded_reg _ (by simp only [numTotalRegs]; omega), hlv, hvv, if_neg hne,
      if_neg (show _ ≠ 38 by omega), if_neg (show _ ≠ 37 by omega), if_pos rfl]
  · have hpart : ∀ k, k ≠ (m.reg loadReg).toNat → k ≠ loadReg → k ≠ loadValueReg →
        nv.reg k = mv.reg k := fun k h1 h2 h3 => by
      rw [hnv.reg k (by tauto), hmv.reg k (by tauto)]
    constructor
    · intro hsame hne
      have hk := hsame.2 (m.reg loadReg).toNat (by simp only [prevPCReg]; omega)
      rw [hra _ (by simp only [numTotalRegs]; omega), hrb _ (by simp only [numTotalRegs]; omega),
        finishReg_general hne (by omega), finishReg_general hne (by omega), hmv37, hmv38, hnv37,
        if_pos rfl, if_neg (show ¬_ = (0 : Word).toNat from hne)] at hk
      exact hk.symm
    · intro hval
      refine ⟨hma.trans ((hmv.memory.trans hnv.memory.symm).trans hmb.symm), fun k hk => ?_⟩
      have hk' : k < numTotalRegs := lt_of_le_of_lt hk (by decide)
      rw [hra k hk', hrb k hk']
      by_cases hgen : k < 34
      · by_cases hk0 : k = 0
        · rw [hk0]
          rfl
        · rw [finishReg_general hk0 hgen, finishReg_general hk0 hgen, hmv37, hmv38, hnv37,
            if_neg (show ¬k = (0 : Word).toNat from hk0)]
          split_ifs with hkr
          · rw [hkr] at hk0 ⊢
            exact (hval hk0).symm
          · exact (hpart k hkr (show k ≠ 37 by omega) (show k ≠ 38 by omega)).symm
      · have h35 := hpart nextPCReg (show 35 ≠ _ by omega) (by decide) (by decide)
        have h34 := hpart pcReg (show 34 ≠ _ by omega) (by decide) (by decide)
        have hcases : k = pcReg ∨ k = nextPCReg ∨ k = prevPCReg := by
          simp only [pcReg, nextPCReg, prevPCReg] at *
          omega
        obtain rfl | rfl | rfl := hcases
        · exact h35.symm
        · exact hpcv.trans hpcn.symm
        · exact h34.symm

end slot

theorem oneInstruction_inRange {m m' : Machine} (hl : LoadInRange m)
    (h : oneInstruction m = .ok () m') : LoadInRange m' ∧ m'.reg 0 = 0 := by
  rw [oneInstruction_eq] at h
  obtain ⟨a, m₁, hbody, hfin⟩ := EStateM.bind_eq_ok h
  obtain ⟨raw, m₂, hfetch, hexec⟩ := EStateM.bind_eq_ok hbody
  have hleave : Leaves (fun _ => False) fetch :=
    (leaves_readRegister _).bind fun _ => leaves_readMem
  have hl₂ : LoadInRange m₂ := by
    rw [LoadInRange, hleave m raw m₂ hfetch loadReg id]
    exact hl
  obtain ⟨next, m₃, hn, hexec⟩ := EStateM.bind_eq_ok hexec
  rw [readRegister_ok (by decide)] at hn
  obtain ⟨rfl, rfl⟩ := EStateM.Result.ok.inj hn
  have hz : ¬Hazard (decode raw) m₂ := by
    intro hz
    obtain ⟨t, ht⟩ := execute_hazard _ (decode_rs_lt raw) (decode_rt_lt raw) hz
    rw [ht] at hexec
    cases hexec
  have hpost : EStateM.Post (execute (decode raw) (m₂.reg nextPCReg + 4)) m₂ AfterOk NoTrap :=
    post_execute (decode_rs_lt raw) (decode_rt_lt raw) (decode_rd_lt raw)
      (decode_handled raw) hz hl₂
  unfold EStateM.Post at hpost
  rw [hexec] at hpost
  obtain ⟨m'', hfin', -, hreg⟩ := finishInstruction_eq a hpost.1
  rw [hfin] at hfin'
  obtain ⟨-, rfl⟩ := EStateM.Result.ok.inj hfin'
  refine ⟨?_, hreg 0 (by decide)⟩
  rw [LoadInRange, hreg loadReg (by decide)]
  exact hpost.2

/-- An interrupt between a load into `r` and an instruction that completes and does not read
`r` makes no difference, whatever value is loaded, exactly when the instruction does not
write `r`, or `r` is register 0. -/
theorem delaySlot_invisible_iff {m m₁ m' : Machine} {raw : Word} (hl : (m.reg loadReg).toNat < 32)
    (h0 : m.reg 0 = 0) (hfetch : fetch m = .ok raw m₁)
    (hread : (m.reg loadReg).toNat ∉ (decode raw).reads) (hrun : oneInstruction m = .ok () m') :
    (∀ v, ∃ a b, oneInstruction (m.setReg loadValueReg v) = .ok () a ∧
      (do delayedLoad 0 0; oneInstruction) (m.setReg loadValueReg v) = .ok () b ∧ SameState a b) ↔
      ((decode raw).dest = some (m.reg loadReg).toNat → (m.reg loadReg).toNat = 0) := by
  obtain ⟨m₂, hslot⟩ := slot_runs hl h0 hfetch hread hrun
  constructor
  · intro hall hdest
    by_contra hne
    -- the register holds what the instruction wrote, so a load of another value shows
    obtain ⟨n₂, a, b, ha, hb, hag, -, hiff⟩ := hslot (m₂.reg (m.reg loadReg).toNat + 1)
    obtain ⟨a', b', ha', hb', hsame⟩ := hall (m₂.reg (m.reg loadReg).toNat + 1)
    obtain ⟨-, rfl⟩ := EStateM.Result.ok.inj (ha.symm.trans ha')
    obtain ⟨-, rfl⟩ := EStateM.Result.ok.inj (hb.symm.trans hb')
    have hval := hiff.mp hsame hne
    rw [hag.reg _ fun h => h.2 hdest] at hval
    exact absurd hval.symm (by simp)
  · intro hcond v
    obtain ⟨n₂, a, b, ha, hb, -, hkeep, hiff⟩ := hslot v
    refine ⟨a, b, ha, hb, hiff.mpr fun hne => hkeep (fun hdest => hne (hcond hdest)) hne⟩

/-- A load of 7 into register 1 is pending; `ADDU r3,r2,r2`. -/
theorem machineWith_slot_invisible : ∃ a b,
    oneInstruction (((machineWith 0x00421821 5 6).setReg loadReg 1).setReg loadValueReg 7) =
      .ok () a ∧
      (do delayedLoad 0 0; oneInstruction)
        (((machineWith 0x00421821 5 6).setReg loadReg 1).setReg loadValueReg 7) = .ok () b ∧
      SameState a b :=
  (delaySlot_invisible_iff (m := (machineWith 0x00421821 5 6).setReg loadReg 1) (by decide)
    (by decide) rfl (by decide) rfl).mpr (by decide) 7

/-- A load of 7 into register 1 is pending; `ADDIU r1,r0,5` leaves 7 there, and 5 when an
interrupt comes first. -/
theorem machineWith_slot_visible :
    (1 : ℕ) ∉ (decode 0x24010005).reads ∧
    ∃ a b, oneInstruction (((machineWith 0x24010005 0 0).setReg loadReg 1).setReg loadValueReg 7) =
        .ok () a ∧
      (do delayedLoad 0 0; oneInstruction)
        (((machineWith 0x24010005 0 0).setReg loadReg 1).setReg loadValueReg 7) = .ok () b ∧
      a.reg 1 = 7 ∧ b.reg 1 = 5 ∧ ¬SameState a b := by
  refine ⟨by decide, _, _, rfl, rfl, by decide, by decide, fun h => ?_⟩
  exact absurd (h.2 1 (by decide)) (by decide)

end Nachos
