import Nachos.CallRuns
import Nachos.LinearMemory
import Nachos.ProgramLoading
import Nachos.Simulation
import Nachos.StateRelated
import Nachos.UserRegisters

/-! A program does not see which frames it has been given. Two machines whose page tables differ in
the frames only, with the same bytes in the frames, go through instructions, interrupts and the
accesses of the kernel with the same results, and leave every other frame alone. -/
namespace Nachos
open EStateM (Related Respects related_ok related_error respects_pure respects_throw)

def SameButFrames (es fs : List TranslationEntry) : Prop :=
  List.Forall₂ (fun e f => f = { e with physicalPage := f.physicalPage }) es fs

/-- The memory that a program may use, and what the rest of the memory holds. -/
structure Home where
  own : Set ℕ
  rest : Memory

structure Home.Houses (home : Home) (entries : List TranslationEntry) (m : Machine) : Prop where
  mmu : m.mmu = .pageTable entries
  framed : Framed entries
  within : ∀ x p, place entries x = some p → p ∈ home.own
  rest : ∀ p, p ∉ home.own → m.mainMemory p = home.rest p

structure Copies (es fs : List TranslationEntry) (m n : Machine) : Prop where
  tables : SameButFrames es fs
  registers : n.registers = m.registers
  bytes : ∀ x p q, place es x = some p → place fs x = some q → n.mainMemory q = m.mainMemory p

/-- The machines run one program in two homes. -/
def Relocated (home home' : Home) (m n : Machine) : Prop :=
  ∃ es fs, home.Houses es m ∧ home'.Houses fs n ∧ Copies es fs m n

section translation
variable {es fs : List TranslationEntry} {a : Word} {size offset : ℕ} {writing : Bool}

theorem TranslationEntry.access_framed (e : TranslationEntry) (writing : Bool)
    (hf : 0 ≤ e.physicalPage ∧ e.physicalPage < numPhysPages) (h : offset + size ≤ pageSize) :
    e.access offset size writing =
      if e.readOnly && writing then .ok (.error .readOnly)
      else .ok (.ok (e.physicalPage.toNat * pageSize + offset, e.touch writing)) := by
  have hfit : e.physicalPage.toNat * pageSize + offset + size ≤ memorySize := by
    simp only [pageSize, memorySize, numPhysPages] at *
    omega
  have hrange : ¬ (e.physicalPage < 0 ∨ numPhysPages ≤ e.physicalPage) := by omega
  rw [TranslationEntry.access, if_neg hrange]
  simp only [hfit, if_true]

theorem translate_pageTable {e : TranslationEntry} (ha : misaligned a size = false)
    (hs : size = 1 ∨ size = 2 ∨ size = 4) (he : es[a.toNat / pageSize]? = some e)
    (hv : e.valid = true) (hf : Framed es) :
    translate (.pageTable es) a size writing =
      if e.readOnly && writing then .ok (.error .readOnly)
      else .ok (.ok (e.physicalPage.toNat * pageSize + a.toNat % pageSize,
        .pageTable (es.set (a.toNat / pageSize) (e.touch writing)))) := by
  have hacc := e.access_framed writing (hf.below e (List.mem_of_getElem? he) hv)
    (offset_add_size_le hs ha)
  simp only [translate, ha, Bool.false_eq_true, if_false, he, hv, Bool.not_true, hacc, bind,
    Except.bind]
  split_ifs <;> rfl

theorem Framed.touch (hf : Framed es) {v : ℕ} {e : TranslationEntry} (he : es[v]? = some e)
    (writing : Bool) : Framed (es.set v (e.touch writing)) := by
  have hback : ∀ (i : ℕ) e', (es.set v (e.touch writing))[i]? = some e' →
      ∃ e₀, es[i]? = some e₀ ∧ e'.valid = e₀.valid ∧ e'.physicalPage = e₀.physicalPage := by
    intro i e' hi
    by_cases hvi : v = i
    · subst hvi
      rw [List.getElem?_set_self (List.getElem?_eq_some_iff.mp he).1] at hi
      obtain rfl := Option.some.inj hi
      exact ⟨e, he, rfl, rfl⟩
    · rw [List.getElem?_set_ne hvi] at hi
      exact ⟨e', hi, rfl, rfl⟩
  constructor
  case below =>
    intro e' hmem hv
    obtain ⟨i, hi⟩ := List.mem_iff_getElem?.mp hmem
    obtain ⟨e₀, he₀, hv₀, hp₀⟩ := hback i e' hi
    rw [hp₀]
    exact hf.below e₀ (List.mem_of_getElem? he₀) (hv₀ ▸ hv)
  case different =>
    intro i j e₁ e₂ h₁ h₂ hv₁ hv₂ hp
    obtain ⟨e₁', he₁, hw₁, hp₁⟩ := hback i e₁ h₁
    obtain ⟨e₂', he₂, hw₂, hp₂⟩ := hback j e₂ h₂
    exact hf.different i j e₁' e₂' he₁ he₂ (hw₁ ▸ hv₁) (hw₂ ▸ hv₂) (by rw [← hp₁, hp, hp₂])

theorem place_touch {v : ℕ} {e : TranslationEntry} (he : es[v]? = some e) (writing : Bool)
    (x : ℕ) : place (es.set v (e.touch writing)) x = place es x := by
  unfold place
  by_cases hv : v = x / pageSize
  · subst hv
    rw [List.getElem?_set_self (List.getElem?_eq_some_iff.mp he).1, he]
    cases hval : e.valid with
    | false => simp [Option.filter, TranslationEntry.touch, hval]
    | true => simp [Option.filter, TranslationEntry.touch, hval]
  · rw [List.getElem?_set_ne hv]

theorem place_of_entry {e : TranslationEntry} (hs : size = 1 ∨ size = 2 ∨ size = 4)
    (ha : misaligned a size = false) (he : es[a.toNat / pageSize]? = some e)
    (hv : e.valid = true) {j : ℕ} (hj : j < size) :
    place es (a.toNat + j) =
      some (e.physicalPage.toNat * pageSize + a.toNat % pageSize + j) := by
  have hoff := offset_add_size_le hs ha
  have hpage : (a.toNat + j) / pageSize = a.toNat / pageSize := by
    simp only [pageSize] at *
    omega
  rw [place, hpage, he, Option.filter_some, if_pos hv, Option.map_some, Option.some.injEq]
  simp only [pageSize] at *
  omega

/-- Both translations raise one exception, or both reach the bytes of the address. -/
theorem translate_copies (a : Word) (writing : Bool) (ht : SameButFrames es fs) (hf : Framed es)
    (hf' : Framed fs) (hs : size = 1 ∨ size = 2 ∨ size = 4) :
    (∃ x, translate (.pageTable es) a size writing = .ok (.error x) ∧
      translate (.pageTable fs) a size writing = .ok (.error x)) ∨
    ∃ pa qa es' fs', translate (.pageTable es) a size writing = .ok (.ok (pa, .pageTable es')) ∧
      translate (.pageTable fs) a size writing = .ok (.ok (qa, .pageTable fs')) ∧
      SameButFrames es' fs' ∧ Framed es' ∧ Framed fs' ∧
      (∀ x, place es' x = place es x) ∧ (∀ x, place fs' x = place fs x) ∧
      ∀ j < size, place es (a.toNat + j) = some (pa + j) ∧
        place fs (a.toNat + j) = some (qa + j) := by
  by_cases ha : misaligned a size = true
  · exact .inl ⟨.addressError, by rw [translate, if_pos ha], by rw [translate, if_pos ha]⟩
  rw [Bool.not_eq_true] at ha
  cases he : es[a.toNat / pageSize]? with
  | none =>
    have hn : fs[a.toNat / pageSize]? = none := by
      rw [List.getElem?_eq_none_iff, ← ht.length_eq]
      exact List.getElem?_eq_none_iff.mp he
    refine .inl ⟨.addressError, ?_, ?_⟩
    · simp only [translate, ha, Bool.false_eq_true, if_false, he]
    · simp only [translate, ha, Bool.false_eq_true, if_false, hn]
  | some e =>
    obtain ⟨hlt, rfl⟩ := List.getElem?_eq_some_iff.mp he
    have hlt' : a.toNat / pageSize < fs.length := ht.length_eq ▸ hlt
    have he' := List.getElem?_eq_getElem hlt'
    have hsame : fs[a.toNat / pageSize] = { es[a.toNat / pageSize] with
        physicalPage := fs[a.toNat / pageSize].physicalPage } := ht.get hlt hlt'
    generalize es[a.toNat / pageSize] = e at he hsame
    generalize fs[a.toNat / pageSize] = f at he' hsame
    cases hv : e.valid with
    | false =>
      refine .inl ⟨.pageFault, ?_, ?_⟩
      · simp only [translate, ha, Bool.false_eq_true, if_false, he, hv, Bool.not_false, if_true]
      · have hv' : f.valid = false := by
          rw [hsame]
          exact hv
        simp only [translate, ha, Bool.false_eq_true, if_false, he', hv', Bool.not_false, if_true]
    | true =>
      have hv' : f.valid = true := by
        rw [hsame]
        exact hv
      have hro : f.readOnly = e.readOnly := by rw [hsame]
      rw [translate_pageTable ha hs he hv hf, translate_pageTable ha hs he' hv' hf', hro]
      by_cases hw : (e.readOnly && writing) = true
      · exact .inl ⟨.readOnly, if_pos hw, if_pos hw⟩
      · rw [if_neg hw, if_neg hw]
        refine .inr ⟨_, _, _, _, rfl, rfl, Simulation.forall₂_set ht ?_ _, hf.touch he writing,
          hf'.touch he' writing, place_touch he writing, place_touch he' writing, fun j hj => ?_⟩
        · rw [hsame]
          rfl
        · exact ⟨place_of_entry hs ha he hv hj, place_of_entry hs ha he' hv' hj⟩

end translation

section memory
variable {es fs : List TranslationEntry} {mem mem' : Memory} {pa qa size : ℕ}

theorem Memory.read_congr (hs : size = 1 ∨ size = 2 ∨ size = 4)
    (h : ∀ j < size, mem' (qa + j) = mem (pa + j)) : mem'.read qa size = mem.read pa size := by
  obtain rfl | rfl | rfl := hs
  · simp only [Memory.read, show mem' qa = mem pa from h 0 (by decide)]
  · simp only [Memory.read, show mem' qa = mem pa from h 0 (by decide), h 1 (by decide)]
  · simp only [Memory.read, show mem' qa = mem pa from h 0 (by decide), h 1 (by decide),
      h 2 (by decide), h 3 (by decide)]

theorem store_place (hf : Framed es) {a : ℕ} {v : Word}
    (hplace : ∀ j < size, place es (a + j) = some (pa + j)) {x p : ℕ} (hx : place es x = some p) :
    mem.store pa size v p =
      if a ≤ x ∧ x < a + size then v.extractLsb' (8 * (x - a)) 8 else mem p := by
  rw [Memory.store]
  by_cases hin : a ≤ x ∧ x < a + size
  · obtain ⟨j, rfl⟩ := Nat.exists_eq_add_of_le hin.1
    have hp : p = pa + j := Option.some.inj (hx.symm.trans (hplace j (by omega)))
    rw [if_pos hin, if_pos (by omega), show p - pa = a + j - a by omega]
  · rw [if_neg hin, if_neg]
    rintro ⟨hle, hlt⟩
    obtain ⟨j, rfl⟩ := Nat.exists_eq_add_of_le hle
    have hxj := hf.place_inj hx (hplace j (by omega))
    omega

theorem Home.Houses.store {home : Home} {m : Machine} (h : home.Houses es m) {a : ℕ} (v : Word)
    (hplace : ∀ j < size, place es (a + j) = some (pa + j)) :
    home.Houses es { m with mainMemory := m.mainMemory.store pa size v } where
  mmu := h.mmu
  framed := h.framed
  within := h.within
  rest p hp := by
    rw [← h.rest p hp]
    refine if_neg ?_
    rintro ⟨hle, hlt⟩
    obtain ⟨j, rfl⟩ := Nat.exists_eq_add_of_le hle
    exact hp (h.within _ _ (hplace j (by omega)))

end memory

section machine
variable {home home' : Home} {α β : Type}

theorem Relocated.reg {m n : Machine} (h : Relocated home home' m n) (i : ℕ) :
    n.reg i = m.reg i := by
  obtain ⟨es, fs, -, -, hc⟩ := h
  unfold Machine.reg
  rw [hc.registers]

theorem Relocated.setReg {m n : Machine} (h : Relocated home home' m n) (i : ℕ) (v : Word) :
    Relocated home home' (m.setReg i v) (n.setReg i v) := by
  obtain ⟨es, fs, hm, hn, hc⟩ := h
  refine ⟨es, fs, ⟨hm.mmu, hm.framed, hm.within, hm.rest⟩,
    ⟨hn.mmu, hn.framed, hn.within, hn.rest⟩, ⟨hc.tables, ?_, hc.bytes⟩⟩
  simp only [Machine.setReg, hc.registers]

theorem respects_readRegister (i : ℕ) :
    Respects (Relocated home home') (readRegister i) (readRegister i) := by
  intro m n h
  by_cases hi : i < numTotalRegs
  · refine related_ok (a := m.reg i) (if_pos hi) ?_ h
    rw [← h.reg]
    exact if_pos hi
  · exact related_error (if_neg hi) (if_neg hi) h

theorem respects_writeRegister (i : ℕ) (v : Word) :
    Respects (Relocated home home') (writeRegister i v) (writeRegister i v) := by
  intro m n h
  by_cases hi : i < numTotalRegs
  · exact related_ok (if_pos hi) (if_pos hi) (h.setReg i v)
  · exact related_error (if_neg hi) (if_neg hi) h

theorem respects_delayedLoad (r v : Word) :
    Respects (Relocated home home') (delayedLoad r v) (delayedLoad r v) :=
  (respects_readRegister _).bind fun _ => (respects_readRegister _).bind fun _ =>
    (respects_writeRegister _ _).bind fun _ => (respects_writeRegister _ _).bind fun _ =>
      (respects_writeRegister _ _).bind fun _ => respects_writeRegister _ _

theorem respects_raiseException (which : ExceptionType) (bad : Word) :
    Respects (Relocated home home') (raiseException which bad : Exec α)
      (raiseException which bad) :=
  (respects_writeRegister _ _).bind fun _ => (respects_delayedLoad _ _).bind fun _ =>
    respects_throw _

theorem raiseException_bind (which : ExceptionType) (bad : Word) (f : α → Exec β) :
    raiseException which bad >>= f = raiseException which bad := by
  simp only [raiseException, bind_assoc]
  rfl

theorem access_related {m n : Machine} (h : Relocated home home' m n) {size : ℕ}
    (hs : size = 1 ∨ size = 2 ∨ size = 4) (addr : Word) (writing : Bool) {f : ℕ → Exec α}
    (hok : ∀ pa qa es fs m' n', home.Houses es m' → home'.Houses fs n' → Copies es fs m' n' →
      (∀ j < size, place es (addr.toNat + j) = some (pa + j)) →
      (∀ j < size, place fs (addr.toNat + j) = some (qa + j)) →
      Related (Relocated home home') (f pa) (f qa) m' n') :
    Related (Relocated home home') (translateOrRaise addr size writing >>= f)
      (translateOrRaise addr size writing >>= f) m n := by
  obtain ⟨es, fs, hm, hn, hc⟩ := id h
  obtain ⟨x, hx, hx'⟩ | ⟨pa, qa, es', fs', hx, hx', ht, hf, hf', hp, hp', hplace⟩ :=
    translate_copies addr writing hc.tables hm.framed hn.framed hs
  · have hr : Related (Relocated home home') (raiseException x addr : Exec α)
        (raiseException x addr) m n := respects_raiseException x addr m n h
    rw [← raiseException_bind x addr f] at hr
    rw [← hm.mmu] at hx
    rw [← hn.mmu] at hx'
    unfold Related at hr ⊢
    rw [EStateM.apply_bind, EStateM.apply_bind, translateOrRaise_raise hx,
      translateOrRaise_raise hx']
    exact hr
  · rw [← hm.mmu] at hx
    rw [← hn.mmu] at hx'
    have hfr := hok pa qa es' fs' { m with mmu := .pageTable es' } { n with mmu := .pageTable fs' }
      ⟨rfl, hf, fun x p hxp => hm.within x p (by rw [← hp]; exact hxp), hm.rest⟩
      ⟨rfl, hf', fun x p hxp => hn.within x p (by rw [← hp']; exact hxp), hn.rest⟩
      ⟨ht, hc.registers, fun x p q hxp hxq =>
        hc.bytes x p q (by rw [← hp]; exact hxp) (by rw [← hp']; exact hxq)⟩
      (fun j hj => by rw [hp]; exact (hplace j hj).1)
      (fun j hj => by rw [hp']; exact (hplace j hj).2)
    unfold Related at hfr ⊢
    rw [EStateM.apply_bind, EStateM.apply_bind, translateOrRaise_ok hx, translateOrRaise_ok hx']
    exact hfr

theorem respects_readMem {size : ℕ} (hs : size = 1 ∨ size = 2 ∨ size = 4) (addr : Word) :
    Respects (Relocated home home') (readMem addr size) (readMem addr size) := by
  intro m n h
  refine access_related h hs addr false fun pa qa es fs m' n' hm hn hc hp hq => ?_
  have hread : n'.mainMemory.read qa size = m'.mainMemory.read pa size :=
    Memory.read_congr hs fun j hj => hc.bytes _ _ _ (hp j hj) (hq j hj)
  unfold Related
  simp only [EStateM.apply_bind, EStateM.apply_get, hread]
  cases m'.mainMemory.read pa size with
  | none => exact ⟨rfl, es, fs, hm, hn, hc⟩
  | some v => exact ⟨rfl, es, fs, hm, hn, hc⟩

theorem respects_writeMem {size : ℕ} (hs : size = 1 ∨ size = 2 ∨ size = 4) (addr v : Word) :
    Respects (Relocated home home') (writeMem addr size v) (writeMem addr size v) := by
  intro m n h
  refine access_related h hs addr true fun pa qa es fs m' n' hm hn hc hp hq => ?_
  have hstored : Relocated home home'
      { m' with mainMemory := m'.mainMemory.store pa size v }
      { n' with mainMemory := n'.mainMemory.store qa size v } := by
    refine ⟨es, fs, hm.store v hp, hn.store v hq, hc.tables, hc.registers,
      fun x p q hxp hxq => ?_⟩
    dsimp only
    rw [store_place hm.framed hp hxp, store_place hn.framed hq hxq, hc.bytes x p q hxp hxq]
  obtain rfl | rfl | rfl := hs <;> exact related_ok rfl rfl hstored

theorem respects_alu (i : Instruction) (pcAfter : Word) (f : Word → Word → Word) :
    Respects (Relocated home home') (alu i pcAfter f) (alu i pcAfter f) :=
  (respects_readRegister _).bind fun _ => (respects_readRegister _).bind fun _ =>
    (respects_writeRegister _ _).bind fun _ => respects_pure _

theorem respects_aluImm (i : Instruction) (pcAfter : Word) (f : Word → Word) :
    Respects (Relocated home home') (aluImm i pcAfter f) (aluImm i pcAfter f) :=
  (respects_readRegister _).bind fun _ => (respects_writeRegister _ _).bind fun _ =>
    respects_pure _

theorem respects_moveReg (src dst : ℕ) (pcAfter : Word) :
    Respects (Relocated home home') (moveReg src dst pcAfter) (moveReg src dst pcAfter) :=
  (respects_readRegister _).bind fun _ => (respects_writeRegister _ _).bind fun _ =>
    respects_pure _

theorem respects_setHiLo (hi lo pcAfter : Word) :
    Respects (Relocated home home') (setHiLo hi lo pcAfter) (setHiLo hi lo pcAfter) :=
  (respects_writeRegister _ _).bind fun _ => (respects_writeRegister _ _).bind fun _ =>
    respects_pure _

theorem respects_branch (i : Instruction) (pcAfter : Word) (taken : Bool) :
    Respects (Relocated home home') (branch i pcAfter taken) (branch i pcAfter taken) :=
  (respects_readRegister _).bind fun _ => respects_pure _

theorem respects_link (rd : ℕ) : Respects (Relocated home home') (link rd) (link rd) :=
  (respects_readRegister _).bind fun _ => respects_writeRegister _ _

theorem respects_effectiveAddress (i : Instruction) :
    Respects (Relocated home home') (effectiveAddress i) (effectiveAddress i) :=
  (respects_readRegister _).bind fun _ => respects_pure _

theorem respects_assertAligned (tmp : Word) :
    Respects (Relocated home home') (assertAligned tmp) (assertAligned tmp) :=
  (respects_pure _).ite (respects_throw _)

theorem respects_pendingValue (rt : ℕ) :
    Respects (Relocated home home') (pendingValue rt) (pendingValue rt) :=
  (respects_readRegister _).bind fun _ => (respects_readRegister _).ite (respects_readRegister _)

theorem respects_result (r : ℕ) (v pcAfter : Word) : Respects (Relocated home home')
    (do writeRegister r v; return { pcAfter := pcAfter } : Exec After)
    (do writeRegister r v; return { pcAfter := pcAfter }) :=
  (respects_writeRegister _ _).bind fun _ => respects_pure _

theorem respects_execute (i : Instruction) (pcAfter : Word) :
    Respects (Relocated home home') (execute i pcAfter) (execute i pcAfter) := by
  obtain ⟨op, rs, rt, rd, extra⟩ := i
  cases op
  case addu | and | nor | or | sll | sllv | slt | sltu | sra | srav | srl | srlv | subu | xor =>
    exact respects_alu _ _ _
  case addiu | andi | lui | ori | slti | sltiu | xori => exact respects_aluImm _ _ _
  case mfhi | mflo | mthi | mtlo => exact respects_moveReg _ _ _
  case add | sub =>
    exact (respects_readRegister _).bind fun _ => (respects_readRegister _).bind fun _ =>
      (respects_raiseException _ _).ite (respects_result _ _ _)
  case addi =>
    exact (respects_readRegister _).bind fun _ =>
      (respects_raiseException _ _).ite (respects_result _ _ _)
  case beq | bne =>
    exact (respects_readRegister _).bind fun _ => (respects_readRegister _).bind fun _ =>
      respects_branch _ _ _
  case bgez | bgtz | blez | bltz =>
    exact (respects_readRegister _).bind fun _ => respects_branch _ _ _
  case bgezal | bltzal =>
    exact (respects_link _).bind fun _ => (respects_readRegister _).bind fun _ =>
      respects_branch _ _ _
  case div =>
    exact (respects_readRegister _).bind fun _ => (respects_readRegister _).bind fun _ =>
      (respects_setHiLo _ _ _).ite ((respects_throw _).ite (respects_setHiLo _ _ _))
  case divu =>
    exact (respects_readRegister _).bind fun _ => (respects_readRegister _).bind fun _ =>
      (respects_setHiLo _ _ _).ite (respects_setHiLo _ _ _)
  case mult | multu =>
    exact (respects_readRegister _).bind fun _ => (respects_readRegister _).bind fun _ =>
      respects_setHiLo _ _ _
  case j => exact respects_pure _
  case jal => exact (respects_link _).bind fun _ => respects_pure _
  case jalr =>
    exact (respects_link _).bind fun _ => (respects_readRegister _).bind fun _ => respects_pure _
  case jr => exact (respects_readRegister _).bind fun _ => respects_pure _
  case lb | lbu =>
    exact (respects_effectiveAddress _).bind fun _ =>
      (respects_readMem (by decide) _).bind fun _ => respects_pure _
  case lh | lhu | lw =>
    exact (respects_effectiveAddress _).bind fun _ => (respects_raiseException _ _).ite
      ((respects_readMem (by decide) _).bind fun _ => respects_pure _)
  case lwl | lwr =>
    exact (respects_effectiveAddress _).bind fun _ => (respects_assertAligned _).bind fun _ =>
      (respects_readMem (by decide) _).bind fun _ => (respects_pendingValue _).bind fun _ =>
        respects_pure _
  case sb | sh | sw =>
    exact (respects_readRegister _).bind fun _ => (respects_effectiveAddress _).bind fun _ =>
      (respects_writeMem (by decide) _ _).bind fun _ => respects_pure _
  case swl | swr =>
    exact (respects_effectiveAddress _).bind fun _ => (respects_assertAligned _).bind fun _ =>
      (respects_readMem (by decide) _).bind fun _ => (respects_readRegister _).bind fun _ =>
        (respects_writeMem (by decide) _ _).bind fun _ => respects_pure _
  case syscall | res | unimp => exact respects_raiseException _ _
  case rfe | special | bcond => exact respects_throw _

theorem respects_oneInstruction :
    Respects (Relocated home home') oneInstruction oneInstruction := by
  have hfetch : Respects (Relocated home home') fetch fetch :=
    (respects_readRegister _).bind fun _ => respects_readMem (by decide) _
  have hfinish (a : After) :
      Respects (Relocated home home') (finishInstruction a) (finishInstruction a) :=
    (respects_delayedLoad _ _).bind fun _ => (respects_readRegister _).bind fun _ =>
      (respects_writeRegister _ _).bind fun _ => (respects_readRegister _).bind fun _ =>
        (respects_writeRegister _ _).bind fun _ => respects_writeRegister _ _
  exact hfetch.bind fun _ => (respects_readRegister _).bind fun _ =>
    (respects_execute _ _).bind fun a => hfinish a

end machine

/-- What the simulator and the kernel do to the machine while a program runs: an instruction, the
delayed load that an interrupt does, the accesses of the system calls. -/
inductive Command where
  | oneInstruction
  | checkIfDue
  | readRegister (i : ℕ)
  | writeRegister (i : ℕ) (v : Word)
  | readMem (addr : Word) (size : ℕ)
  | writeMem (addr : Word) (size : ℕ) (v : Word)

def Command.Sized : Command → Prop
  | .readMem _ size | .writeMem _ size _ => size = 1 ∨ size = 2 ∨ size = 4
  | _ => True

def Command.exec : Command → Exec (Option Word)
  | .oneInstruction => do
    Nachos.oneInstruction
    return none
  | .checkIfDue => do
    delayedLoad 0 0
    return none
  | .readRegister i => some <$> Nachos.readRegister i
  | .writeRegister i v => do
    Nachos.writeRegister i v
    return none
  | .readMem addr size => some <$> Nachos.readMem addr size
  | .writeMem addr size v => do
    Nachos.writeMem addr size v
    return none

/-- The answer to a command: a value, or the exception whose handler is entered. -/
def Machine.obey (m : Machine) (c : Command) :
    Except Trap (Machine × Except ExceptionType (Option Word)) :=
  match c.exec m with
  | .ok v m' => .ok (m', .ok v)
  | .error (.raised which) m' => .ok (m', .error which)
  | .error (.trap t) _ => .error t

theorem respects_exec {home home' : Home} (c : Command) (hc : c.Sized) :
    Respects (Relocated home home') c.exec c.exec := by
  cases c with
  | oneInstruction => exact respects_oneInstruction.bind fun _ => respects_pure _
  | checkIfDue => exact (respects_delayedLoad _ _).bind fun _ => respects_pure _
  | readRegister i => exact (respects_readRegister i).bind fun _ => respects_pure _
  | writeRegister i v => exact (respects_writeRegister i v).bind fun _ => respects_pure _
  | readMem addr size => exact (respects_readMem hc addr).bind fun _ => respects_pure _
  | writeMem addr size v => exact (respects_writeMem hc addr v).bind fun _ => respects_pure _

theorem obey_related {home home' : Home} {c : Command} {m n : Machine} (hc : c.Sized)
    (h : Relocated home home' m n) : (∃ t, m.obey c = .error t ∧ n.obey c = .error t) ∨
      ∃ m' n' a, m.obey c = .ok (m', a) ∧ n.obey c = .ok (n', a) ∧ Relocated home home' m' n' := by
  obtain ⟨v, m', n', hm, hn, hr⟩ | ⟨e, m', n', hm, hn, hr⟩ := (respects_exec c hc m n h).cases
  · exact .inr ⟨m', n', .ok v, by rw [Machine.obey, hm], by rw [Machine.obey, hn], hr⟩
  · cases e with
    | raised which =>
      exact .inr ⟨m', n', .error which, by rw [Machine.obey, hm], by rw [Machine.obey, hn], hr⟩
    | trap t => exact .inl ⟨t, by rw [Machine.obey, hm], by rw [Machine.obey, hn]⟩

section loading
variable {h : NoffHeader} {file : HostFile} {frames frames' : List ℕ} {mem mem' : Memory}

theorem place_residentTable {x p : ℕ} : place (residentTable frames) x = some p ↔
    ∃ f, frames[x / pageSize]? = some f ∧ p = f * pageSize + x % pageSize := by
  rw [place, residentTable_getElem?]
  cases frames[x / pageSize]? with
  | none => simp
  | some f => simp [residentEntry, Option.filter_some, eq_comm]

theorem framed_residentTable (hnd : frames.Nodup) (hf : ∀ f ∈ frames, f < numPhysPages) :
    Framed (residentTable frames) where
  below e he _ := by
    obtain ⟨j, hj⟩ := List.mem_iff_getElem?.mp he
    rw [residentTable_getElem?] at hj
    obtain ⟨f, hfj, rfl⟩ := Option.map_eq_some_iff.mp hj
    have hlt := hf f (List.mem_of_getElem? hfj)
    simp only [residentEntry, numPhysPages] at *
    omega
  different i j e e' hi hj _ _ hp := by
    rw [residentTable_getElem?] at hi hj
    obtain ⟨f, hfi, rfl⟩ := Option.map_eq_some_iff.mp hi
    obtain ⟨g, hgj, rfl⟩ := Option.map_eq_some_iff.mp hj
    obtain rfl : f = g := by simpa [residentEntry] using hp
    exact (List.getElem?_inj (List.getElem?_eq_some_iff.mp hfi).1 hnd).mp (hfi.trans hgj.symm)

theorem sameButFrames_residentTable (hlen : frames.length = frames'.length) :
    SameButFrames (residentTable frames) (residentTable frames') := by
  refine List.forall₂_iff_get.mpr ⟨by simpa [residentTable] using hlen, fun i hi hi' => ?_⟩
  simp [residentTable, residentEntry]

/-- The frames that are free have not been used: they hold the zeros of a new machine. -/
def Blank (memoryMap : BitMap numPhysPages) (mem : Memory) : Prop :=
  ∀ f < numPhysPages, memoryMap.bit f = false → ∀ offset < pageSize,
    mem (f * pageSize + offset) = 0

end loading

section start
variable (k : ℕ) (m n : Machine)

theorem foldl_setReg_rest (f : Fin numTotalRegs → Word) (l : List (Fin numTotalRegs)) :
    (l.foldl (fun m (i : Fin numTotalRegs) => m.setReg i (f i)) m).mmu = m.mmu ∧
      (l.foldl (fun m (i : Fin numTotalRegs) => m.setReg i (f i)) m).mainMemory =
        m.mainMemory := by
  induction l generalizing m with
  | nil => exact ⟨rfl, rfl⟩
  | cons i l ih => exact ih (m.setReg i (f i))

theorem initRegisters_mmu : (UserRegisters.initRegisters k m).mmu = m.mmu :=
  (foldl_setReg_rest m (fun _ => 0) _).1

theorem initRegisters_mainMemory :
    (UserRegisters.initRegisters k m).mainMemory = m.mainMemory :=
  (foldl_setReg_rest m (fun _ => 0) _).2

theorem initRegisters_registers : (UserRegisters.initRegisters k n).registers =
    (UserRegisters.initRegisters k m).registers := by
  funext i
  have hreg (m : Machine) : (UserRegisters.initRegisters k m).reg i =
      if i = UserRegisters.stackReg then BitVec.ofNat 32 (k * pageSize) - 16
      else if i = nextPCReg then 4 else 0 := by
    have hzero := UserRegisters.foldl_setReg (fun _ => 0) (List.finRange numTotalRegs) m i
    rw [if_pos (List.mem_finRange i)] at hzero
    simp only [UserRegisters.initRegisters, reg_setReg, hzero, i.isLt, and_true, ite_self]
  have hsame := (hreg n).trans (hreg m).symm
  simpa [Machine.reg] using hsame

end start

/-- The machine that the program starts on: `InitRegisters`, and `RestoreState` of its space. -/
def Loaded.machine (r : Loaded) (h : NoffHeader) (registers : Fin numTotalRegs → Word) : Machine :=
  UserRegisters.initRegisters h.numPages ⟨registers, r.mainMemory, .pageTable r.pageTable⟩

def SparesUsed (memoryMap : BitMap numPhysPages) (mem mem' : Memory) : Prop :=
  ∀ f, memoryMap.bit f = true → ∀ offset < pageSize,
    mem' (f * pageSize + offset) = mem (f * pageSize + offset)

section program
variable {h : NoffHeader} {file : HostFile} {mem mem' : Memory}
  {memoryMap memoryMap' : BitMap numPhysPages}

theorem div_frame (f : ℕ) {offset : ℕ} (ho : offset < pageSize) :
    (f * pageSize + offset) / pageSize = f := by
  rw [Nat.mul_comm, Nat.mul_add_div (by norm_num), Nat.div_eq_of_lt ho, Nat.add_zero]

def homeIn (frames : List ℕ) (mem : Memory) : Home := ⟨{p | p / pageSize ∈ frames}, mem⟩

theorem LoadedAt.houses {r : Loaded} {frames : List ℕ} (hl : LoadedAt h file mem memoryMap r frames)
    (registers : Fin numTotalRegs → Word) :
    (homeIn frames mem).Houses (residentTable frames) (r.machine h registers) where
  mmu := by rw [Loaded.machine, initRegisters_mmu, hl.table]
  framed := framed_residentTable hl.nodup fun f hf => (hl.free f hf).1
  within x p hx := by
    obtain ⟨f, hf, rfl⟩ := place_residentTable.mp hx
    change (f * pageSize + x % pageSize) / pageSize ∈ frames
    rw [div_frame f (Nat.mod_lt x (show 0 < pageSize by norm_num))]
    exact List.mem_of_getElem? hf
  rest p hp := by
    rw [Loaded.machine, initRegisters_mainMemory]
    exact hl.rest p hp

theorem LoadedAt.spares {r : Loaded} {frames : List ℕ}
    (hl : LoadedAt h file mem memoryMap r frames) {entries : List TranslationEntry} {m : Machine}
    (hm : (homeIn frames mem).Houses entries m) : SparesUsed memoryMap mem m.mainMemory := by
  intro f hf offset ho
  refine hm.rest _ fun hin => ?_
  have hfree := (hl.free f (div_frame f ho ▸ hin)).2
  rw [hf] at hfree
  cases hfree

/-- Out of free frames that are blank, whichever they are, comes one program. -/
theorem LoadedAt.relocated {r r' : Loaded} {frames frames' : List ℕ}
    (hl : LoadedAt h file mem memoryMap r frames) (hl' : LoadedAt h file mem' memoryMap' r' frames')
    (hb : Blank memoryMap mem) (hb' : Blank memoryMap' mem')
    (registers registers' : Fin numTotalRegs → Word) :
    Relocated (homeIn frames mem) (homeIn frames' mem') (r.machine h registers)
      (r'.machine h registers') := by
  refine ⟨_, _, hl.houses registers, hl'.houses registers', ?_, initRegisters_registers _ _ _,
    fun x p q hx hx' => ?_⟩
  · exact sameButFrames_residentTable (hl.length.trans hl'.length.symm)
  · obtain ⟨f, hf, rfl⟩ := place_residentTable.mp hx
    obtain ⟨g, hg, rfl⟩ := place_residentTable.mp hx'
    have hmod := Nat.mod_lt x (show 0 < pageSize by norm_num)
    obtain ⟨hlt, hbit⟩ := hl.free f (List.mem_of_getElem? hf)
    obtain ⟨hlt', hbit'⟩ := hl'.free g (List.mem_of_getElem? hg)
    rw [Loaded.machine, Loaded.machine, initRegisters_mainMemory, initRegisters_mainMemory]
    dsimp only
    rw [hl.bytes _ _ hf _ hmod, hl'.bytes _ _ hg _ hmod, hb f hlt hbit _ hmod,
      hb' g hlt' hbit' _ hmod]

/-- A program runs in whatever free frames it gets as in any others: every sequence of instructions,
interrupts and accesses by the system calls has the same answers, registers and exceptions, or the
simulator dies in both. The frames of other programs stay as they are. -/
theorem program_runs_anywhere (hfree : h.numPages ≤ memoryMap.numClear)
    (hfree' : h.numPages ≤ memoryMap'.numClear) (hb : Blank memoryMap mem)
    (hb' : Blank memoryMap' mem') {r : Loaded} (hr : h.load file mem memoryMap = .ok r)
    (registers registers' : Fin numTotalRegs → Word) :
    ∃ r', h.load file mem' memoryMap' = .ok r' ∧ ∀ cs : List Command, (∀ c ∈ cs, c.Sized) →
      (∃ t, CallRuns.run Machine.obey cs (r.machine h registers) = .error t ∧
        CallRuns.run Machine.obey cs (r'.machine h registers') = .error t) ∨
      ∃ m n answers, CallRuns.run Machine.obey cs (r.machine h registers) = .ok (m, answers) ∧
        CallRuns.run Machine.obey cs (r'.machine h registers') = .ok (n, answers) ∧
        n.registers = m.registers ∧ SparesUsed memoryMap mem m.mainMemory ∧
        SparesUsed memoryMap' mem' n.mainMemory := by
  have hp : h.numPages ≤ numPhysPages := by
    by_contra hp
    rw [NoffHeader.load, if_neg hp] at hr
    cases hr
  obtain ⟨hcode, hdata⟩ := (load_spec file hp hfree mem).1 r hr
  obtain ⟨r₁, frames, hr₁, -, hl⟩ := load_at file mem hp hfree hcode hdata
  obtain rfl := Except.ok.inj (hr.symm.trans hr₁)
  obtain ⟨r', frames', hr', -, hl'⟩ := load_at file mem' hp hfree' hcode hdata
  refine ⟨r', hr', fun cs hcs => ?_⟩
  have hstart := hl.relocated hl' hb hb' registers registers'
  obtain herr | ⟨m, n, answers, hm, hn, es, fs, hhome, hhome', hc⟩ :=
    CallRuns.run_related (fun c m n hc => obey_related hc) hcs hstart
  · exact .inl herr
  · exact .inr ⟨m, n, answers, hm, hn, hc.registers, hl.spares hhome, hl'.spares hhome'⟩

end program

def shared : Memory := fun p => if p < pageSize then 9 else 0

/-- The same program in the frames from 0 on and in those from 1 on. -/
theorem smallProgram_runs_anywhere : ∃ r r',
    smallProgram.load smallFile (fun _ => 0) (.empty _) = .ok r ∧
    smallProgram.load smallFile shared ((BitMap.empty _).setBit 0) = .ok r' ∧
    ((∃ t, CallRuns.run Machine.obey [.oneInstruction] (r.machine smallProgram 0) = .error t ∧
      CallRuns.run Machine.obey [.oneInstruction] (r'.machine smallProgram 0) = .error t) ∨
    ∃ m n answers,
      CallRuns.run Machine.obey [.oneInstruction] (r.machine smallProgram 0) = .ok (m, answers) ∧
      CallRuns.run Machine.obey [.oneInstruction] (r'.machine smallProgram 0) = .ok (n, answers) ∧
      n.registers = m.registers ∧ SparesUsed (.empty _) (fun _ => 0) m.mainMemory ∧
      SparesUsed ((BitMap.empty _).setBit 0) shared n.mainMemory) := by
  have hblank : Blank ((BitMap.empty _).setBit 0) shared := by
    intro f _ hbit offset _
    rw [BitMap.bit_setBit _ (by decide)] at hbit
    have hf : f ≠ 0 := by
      rintro rfl
      simp at hbit
    rw [shared, if_neg]
    simp only [pageSize]
    omega
  obtain ⟨r, frames, hr, -⟩ := @load_at smallProgram smallFile (fun _ => 0) (.empty _)
    (by decide) (by decide) (by decide) (by decide)
  obtain ⟨r', hr', hruns⟩ := program_runs_anywhere (by decide) (by decide)
    (fun _ _ _ _ _ => rfl) hblank hr 0 0
  exact ⟨r, r', hr, hr', hruns [.oneInstruction] (by simp [Command.Sized])⟩

end Nachos
