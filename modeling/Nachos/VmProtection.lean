import Nachos.TlbIsolation

/-! Accesses outside the address space in the VM build. The linear page table of `Translate` has
a size, the TLB has none: a page that is not cached is a page fault, and `Nachos_PageFault` divides
the faulting address as an `int` before `MoveraMemoria` uses it as an index. -/
namespace Nachos

/-- What an access outside the address space should do: it is not mapped, its handling stays in
the page table, takes no frame and leaves the TLB, and an address error is raised. -/
structure Vm.Protects (s : Vm) (addr : Word) (size : ℕ) (writing : Bool) : Prop where
  unmapped : ∀ pa s', translateOrServe addr size writing s ≠ .ok (some pa) s'
  inTable : ∀ s', translateOrServe addr size writing s ≠ .error .memory s'
  served : ∀ r s', translateOrServe addr size writing s = .ok r s' →
    s'.tlb = s.tlb ∧ s'.memoryMap = s.memoryMap
  stopped : ∀ t s', translateOrServe addr size writing s = .error t s' →
    s'.tlb = s.tlb ∧ s'.memoryMap = s.memoryMap
  raises : translate (.tlb s.tlb) addr size writing = .ok (.error .addressError)

variable {s : Vm} {addr : Word} {size : ℕ} {writing : Bool}

theorem translate_tlb_addressError (t : Tlb) :
    translate (.tlb t) addr size writing = .ok (.error .addressError) ↔
      misaligned addr size = true := by
  constructor
  · intro h
    by_contra ha
    rw [translate, if_neg ha] at h
    dsimp only at h
    cases hl : t.lookup (addr.toNat / pageSize : ℕ) with
    | none =>
      rw [hl] at h
      cases h
    | some i =>
      rw [hl] at h
      dsimp only at h
      cases hacc : (t i).access (addr.toNat % pageSize) size writing with
      | error tr =>
        rw [hacc] at h
        cases h
      | ok r =>
        rw [hacc] at h
        cases r with
        | ok p => cases h
        | error e =>
          cases h
          obtain h | h := access_error hacc <;> cases h
  · intro ha
    rw [translate, if_pos ha]

theorem translate_pageTable_outside {entries : List TranslationEntry}
    (hout : entries.length * pageSize ≤ addr.toNat) :
    translate (.pageTable entries) addr size writing = .ok (.error .addressError) := by
  unfold translate
  by_cases ha : misaligned addr size = true
  · rw [if_pos ha]
  · have hnone : entries[addr.toNat / pageSize]? = none :=
      List.getElem?_eq_none ((Nat.le_div_iff_mul_le (by norm_num)).mpr hout)
    rw [if_neg ha]
    dsimp only
    rw [hnone]

theorem protects_iff (s : Vm) (addr : Word) (size : ℕ) (writing : Bool) :
    s.Protects addr size writing ↔ misaligned addr size = true := by
  constructor
  · intro h
    exact (translate_tlb_addressError s.tlb).mp h.raises
  · intro ha
    have htr : translate (.tlb s.tlb) addr size writing = .ok (.error .addressError) :=
      (translate_tlb_addressError s.tlb).mpr ha
    have hstop : translateOrServe addr size writing s = .error .assertion s := by
      simp only [translateOrServe, EStateM.apply_bind, EStateM.apply_get, htr,
        raiseMemoryException, EStateM.apply_throw]
    refine ⟨?_, ?_, ?_, ?_, htr⟩ <;> rw [hstop]
    · intro pa s' h
      cases h
    · intro s' h
      cases h
    · intro r s' h
      cases h
    · intro t s' h
      cases h
      exact ⟨rfl, rfl⟩

theorem faultPageOf_neg {n : ℕ} (h : addr.toNat + n = 2 ^ 32) (hn : n ≤ 2 ^ 31) :
    addr.toInt = -(n : ℤ) ∧ faultPageOf addr = -(n / pageSize : ℕ) := by
  have hint : addr.toInt = -(n : ℤ) := by
    rw [BitVec.toInt_eq_toNat_cond]
    split_ifs <;> omega
  refine ⟨hint, ?_⟩
  rw [faultPageOf, hint, Int.neg_tdiv]
  exact congrArg _ (Int.ofNat_tdiv n pageSize).symm

theorem faultPageOf_pos (h : addr.toNat < 2 ^ 31) :
    faultPageOf addr = (addr.toNat / pageSize : ℕ) := by
  rw [faultPageOf, BitVec.toInt_eq_toNat_of_lt (by omega)]
  exact (Int.ofNat_tdiv _ _).symm

/-- The addresses whose page number is outside the table, and the last 127, which divide to page
0. -/
theorem faultPageOf_outside {n : ℕ} (hout : n * pageSize ≤ addr.toNat) :
    (-pageSize < addr.toInt ∧ addr.toInt < 0 ∧ faultPageOf addr = 0) ∨
      ¬(-pageSize < addr.toInt ∧ addr.toInt < 0) ∧
        (faultPageOf addr < 0 ∨ n ≤ faultPageOf addr) := by
  by_cases hlt : addr.toNat < 2 ^ 31
  · refine Or.inr ⟨?_, Or.inr ?_⟩
    · rw [BitVec.toInt_eq_toNat_of_lt (by omega)]
      omega
    · rw [faultPageOf_pos hlt]
      exact_mod_cast (Nat.le_div_iff_mul_le (by norm_num)).mpr hout
  · obtain ⟨k, hk⟩ := Nat.exists_eq_add_of_le addr.isLt.le
    obtain ⟨hint, hpage⟩ := faultPageOf_neg (n := k) hk.symm (by omega)
    rw [hint, hpage]
    simp only [pageSize]
    omega

theorem page_outside {v : ℤ} (h : v < 0 ∨ s.space.pageTable.length ≤ v) :
    page v s = .error .memory s := by
  by_cases hv : v < 0
  · simp [page, hv]
  · have hnone : s.space.pageTable[v.toNat]? = none := List.getElem?_eq_none (by omega)
    simp [page, hv, hnone]

theorem moveraMemoria_outside {v : ℤ} (hr : s.tlbInRange)
    (h : v < 0 ∨ s.space.pageTable.length ≤ v) : ∃ s', moveraMemoria v s = .error .memory s' := by
  have hlen : (s.space.synced s.tlb).pageTable.length = s.space.pageTable.length :=
    List.length_mapIdx
  by_cases hc : s.space.copied = true
  · exact moveraMemoria_copied hr hc
  have hc' : ¬(s.space.synced s.tlb).copied = true := hc
  refine ⟨{ s with space := s.space.synced s.tlb }, ?_⟩
  simp only [moveraMemoria, EStateM.apply_bind, syncTlb_ok hr, EStateM.apply_get, if_neg hc',
    page_outside (s := { s with space := s.space.synced s.tlb }) (hlen ▸ h)]

theorem translateOrServe_fault (ha : misaligned addr size = false)
    (hl : s.tlb.lookup (addr.toNat / pageSize : ℕ) = none)
    (hlast : s.lastFault ≠ faultPageOf addr) :
    translateOrServe addr size writing s =
      (do moveraMemoria (faultPageOf addr); return none : Kernel (Option ℕ))
        { s with lastFault := faultPageOf addr } := by
  have htr : translate (.tlb s.tlb) addr size writing = .ok (.error .pageFault) := by
    simp only [translate, ha, Bool.false_eq_true, if_false, hl]
  have hlast' : ¬s.lastFault = addr.toInt.tdiv pageSize := hlast
  simp only [translateOrServe, EStateM.apply_bind, EStateM.apply_get, htr, raiseMemoryException,
    nachosPageFault, EStateM.apply_ite, if_neg hlast', EStateM.apply_set]
  rfl

theorem lookup_outside (hr : s.tlbInRange)
    (hout : s.space.pageTable.length * pageSize ≤ addr.toNat) :
    s.tlb.lookup (addr.toNat / pageSize : ℕ) = none := by
  cases hl : s.tlb.lookup (addr.toNat / pageSize : ℕ) with
  | none => rfl
  | some i =>
    have hpage := (Nat.le_div_iff_mul_le (by norm_num : 0 < pageSize)).mpr hout
    have hi := (Tlb.lookup_eq_some hl).2
    have := (hr i).2
    omega

/-- An access outside the address space is an address error in the linear page table; with the TLB
exactly if it is misaligned. Otherwise the handler looks outside the page table, or serves page 0
for the last 127 addresses. -/
theorem vm_protection_iff (s : Vm) (addr : Word) (size : ℕ) (writing : Bool)
    (hout : s.space.pageTable.length * pageSize ≤ addr.toNat) :
    translate (.pageTable s.space.pageTable) addr size writing = .ok (.error .addressError) ∧
      (s.Protects addr size writing ↔ misaligned addr size = true) ∧
      (misaligned addr size = false → s.tlbInRange → s.lastFault ≠ faultPageOf addr →
        if -pageSize < addr.toInt ∧ addr.toInt < 0 then
          translateOrServe addr size writing s =
            (do moveraMemoria 0; return none : Kernel (Option ℕ)) { s with lastFault := 0 }
        else ∃ s', translateOrServe addr size writing s = .error .memory s') := by
  refine ⟨translate_pageTable_outside hout, protects_iff s addr size writing, ?_⟩
  intro ha hr hlast
  rw [translateOrServe_fault ha (lookup_outside hr hout) hlast]
  obtain ⟨h₁, h₂, hpage⟩ | ⟨hno, hpage⟩ := faultPageOf_outside hout
  · rw [if_pos ⟨h₁, h₂⟩, hpage]
  · rw [if_neg hno]
    obtain ⟨s', hs'⟩ := moveraMemoria_outside
      (s := { s with lastFault := faultPageOf addr }) hr hpage
    exact ⟨s', by rw [EStateM.apply_bind, hs']⟩

theorem vm_protection_misaligned :
    bootVm.space.pageTable.length * pageSize ≤ (0xffffffff : Word).toNat ∧
      bootVm.Protects 0xffffffff 4 false :=
  ⟨by decide, (vm_protection_iff bootVm 0xffffffff 4 false (by decide)).2.1.mpr (by decide)⟩

/-- The first address behind the 40 pages, and -4, which gets a frame and a TLB slot for page 0. -/
theorem vm_unprotected :
    bootVm.space.pageTable.length * pageSize ≤ (0x1400 : Word).toNat ∧
      (∃ s', translateOrServe 0x1400 4 false bootVm = .error .memory s') ∧
      ¬bootVm.Protects 0x1400 4 false ∧
      (∃ s', translateOrServe 0xfffffffc 4 false bootVm = .ok none s' ∧
        (s'.tlb 0).valid = true ∧ s'.memoryMap.bit 0 = true) ∧
      ¬bootVm.Protects 0xfffffffc 4 false := by
  refine ⟨by decide, ⟨_, rfl⟩, ?_, ⟨_, rfl, by decide, by decide⟩, ?_⟩
  · rw [protects_iff]
    decide
  · rw [protects_iff]
    decide

end Nachos
