import Nachos.PageFault

/-! What `MoveraMemoria` does when no victim is needed, as equations: the page is in memory
and only the TLB is refilled (`Vm.refilled`), or it gets a free frame (`Vm.loaded`). -/
namespace Nachos

def syncSlot (slot : TranslationEntry) (v : ℕ) (e : TranslationEntry) : TranslationEntry :=
  if slot.virtualPage = v then { e with dirty := slot.dirty, use := slot.use } else e

def syncEntry (tlb : Tlb) (v : ℕ) (e : TranslationEntry) : TranslationEntry :=
  syncSlot (tlb 3) v (syncSlot (tlb 2) v (syncSlot (tlb 1) v (syncSlot (tlb 0) v e)))

def AddrSpace.synced (a : AddrSpace) (tlb : Tlb) : AddrSpace :=
  { a with pageTable := a.pageTable.mapIdx (syncEntry tlb) }

def AddrSpace.codePages (a : AddrSpace) : ℕ := divRoundUp a.noffH1.code.size pageSize

def AddrSpace.initPages (a : AddrSpace) : ℕ := divRoundUp a.noffH1.initData.size pageSize

def AddrSpace.pageBytes (a : AddrSpace) (vpn : ℕ) : List Byte :=
  if vpn < a.codePages ∨ vpn < a.initPages then
    a.ejecutable.readAt pageSize (noffHeaderSize + vpn * pageSize)
  else []

def AddrSpace.freshEntry (a : AddrSpace) (vpn f : ℕ) : TranslationEntry :=
  ⟨vpn, f, true, decide (vpn < a.codePages), true, false⟩

/-- `memoryMap->Find()` gives a frame that has an entry in the core map. -/
def Vm.hasFrame (s : Vm) : Prop :=
  0 ≤ s.memoryMap.find.1 ∧ s.memoryMap.find.1 < s.space.iptEntries

instance (s : Vm) : Decidable s.hasFrame := inferInstanceAs (Decidable (_ ∧ _))

def Vm.refilled (s : Vm) (e : TranslationEntry) : Vm :=
  { s with
    space := s.space.synced s.tlb
    tlb := Function.update s.tlb s.iter e
    iter := s.iter + 1 }

def Vm.loaded (s : Vm) (vpn : ℕ) (f : Fin numPhysPages) : Vm :=
  { s with
    space := { s.space with
      pageTable := (s.space.synced s.tlb).pageTable.set vpn (s.space.freshEntry vpn f)
      ipt := Function.update s.space.ipt f vpn }
    tlb := Function.update s.tlb s.iter (s.space.freshEntry vpn f)
    iter := s.iter + 1
    memoryMap := s.memoryMap.setBit f
    mainMemory := s.mainMemory.putBytes (f * pageSize) (s.space.pageBytes vpn) }

variable {s : Vm} {vpn : ℕ} {e : TranslationEntry}

theorem page_ok (h : s.space.pageTable[vpn]? = some e) : page vpn s = .ok e s := by
  have hn : ¬((vpn : ℤ) < 0) := by omega
  simp [page, hn, h]

theorem updatePage_ok (h : s.space.pageTable[vpn]? = some e)
    (f : TranslationEntry → TranslationEntry) :
    updatePage vpn f s = .ok () { s with space := s.space.setPage vpn f } := by
  simp [updatePage, page_ok h]

theorem modify_eq_mapIdx {α : Type} (l : List α) (n : ℕ) (f : α → α) :
    l.modify n f = l.mapIdx fun v e => if n = v then f e else e := by
  apply List.ext_getElem?
  intro i
  rw [List.getElem?_modify, List.getElem?_mapIdx]
  cases l[i]? <;> simp

def Vm.withPages (s : Vm) (pages : List TranslationEntry) : Vm :=
  { s with space := { s.space with pageTable := pages } }

theorem syncTlbSlot_ok (s : Vm) (pages : List TranslationEntry) {i : Fin tlbSize}
    (h₀ : 0 ≤ (s.tlb i).virtualPage) (h : (s.tlb i).virtualPage < pages.length) :
    syncTlbSlot i (s.withPages pages) =
      .ok () (s.withPages (pages.mapIdx (syncSlot (s.tlb i)))) := by
  obtain ⟨v, hv⟩ := Int.eq_ofNat_of_zero_le h₀
  have hlt : v < pages.length := by omega
  have he : (s.withPages pages).space.pageTable[v]? = some pages[v] :=
    List.getElem?_eq_getElem hlt
  have htlb : ((s.withPages pages).tlb i).virtualPage = v := hv
  simp only [syncTlbSlot, EStateM.apply_bind, EStateM.apply_get, htlb, updatePage_ok he,
    AddrSpace.setPage, Int.toNat_natCast, modify_eq_mapIdx]
  simp only [Vm.withPages]
  congr 4
  funext v' e'
  simp [syncSlot, hv]

/-- Every TLB slot, valid or not, names a page of the space. -/
def Vm.tlbInRange (s : Vm) : Prop :=
  ∀ i, 0 ≤ (s.tlb i).virtualPage ∧ (s.tlb i).virtualPage < s.space.pageTable.length

theorem syncTlb_ok (h : s.tlbInRange) :
    syncTlb s = .ok () { s with space := s.space.synced s.tlb } := by
  have hslot : ∀ i pages, pages.length = s.space.pageTable.length →
      syncTlbSlot i (s.withPages pages) =
        .ok () (s.withPages (pages.mapIdx (syncSlot (s.tlb i)))) := by
    intro i pages hlen
    exact syncTlbSlot_ok s pages (h i).1 (by rw [hlen]; exact (h i).2)
  have hself : s = s.withPages s.space.pageTable := rfl
  rw [syncTlb, hself]
  simp only [EStateM.apply_bind, hslot, List.length_mapIdx, List.mapIdx_mapIdx]
  rfl

theorem refillTlb_ok (h : s.space.pageTable[vpn]? = some e) :
    refillTlb vpn s = .ok () { s with
      tlb := Function.update s.tlb s.iter e
      iter := s.iter + 1 } := by
  simp [refillTlb, copiarATLB, page_ok h]

theorem synced_getElem? (a : AddrSpace) (tlb : Tlb) (v : ℕ) :
    (a.synced tlb).pageTable[v]? = (a.pageTable[v]?).map (syncEntry tlb v) := by
  simp [AddrSpace.synced]

theorem syncEntry_valid (tlb : Tlb) (v : ℕ) (e : TranslationEntry) :
    (syncEntry tlb v e).valid = e.valid ∧ (syncEntry tlb v e).physicalPage = e.physicalPage ∧
      (syncEntry tlb v e).readOnly = e.readOnly ∧
      (syncEntry tlb v e).virtualPage = e.virtualPage := by
  unfold syncEntry syncSlot
  split_ifs <;> simp

theorem synced_map (a : AddrSpace) (tlb : Tlb) (v : ℕ) :
    ((a.synced tlb).pageTable[v]?).map (fun e => (e.valid, e.physicalPage)) =
      (a.pageTable[v]?).map fun e => (e.valid, e.physicalPage) := by
  rw [synced_getElem?, Option.map_map]
  congr 1
  funext e
  obtain ⟨hv, hp, -⟩ := syncEntry_valid tlb v e
  simp [hv, hp]

theorem moveraMemoria_valid (hr : s.tlbInRange) (hc : s.space.copied = false)
    (he : s.space.pageTable[vpn]? = some e) (hv : e.valid = true) :
    moveraMemoria vpn s = .ok () (s.refilled (syncEntry s.tlb vpn e)) := by
  have he' : (s.space.synced s.tlb).pageTable[vpn]? = some (syncEntry s.tlb vpn e) := by
    rw [synced_getElem?, he, Option.map_some]
  have hv' : (syncEntry s.tlb vpn e).valid = true := by rw [(syncEntry_valid _ _ _).1, hv]
  have hc' : (s.space.synced s.tlb).copied = false := hc
  simp only [moveraMemoria, EStateM.apply_bind, syncTlb_ok hr, EStateM.apply_get, hc',
    page_ok (s := { s with space := s.space.synced s.tlb }) he', EStateM.apply_ite, hv',
    refillTlb_ok (s := { s with space := s.space.synced s.tlb }) he', Bool.not_true,
    Bool.false_and, Bool.false_eq_true, if_false, if_true, ite_self]
  rfl

theorem findFrame_ok {f : ℕ} {map : BitMap numPhysPages} (writeBack : Bool)
    (h : s.memoryMap.find = ((f : ℤ), map)) :
    findFrame writeBack s = .ok (f : ℤ) { s with memoryMap := map } := by
  have hne : ¬((f : ℤ) = -1) := by omega
  simp [findFrame, h, hne]

theorem installPage_ok {ubcMemFis : ℤ} (dirty readOnly : Bool)
    (h : s.space.pageTable[vpn]? = some e) :
    installPage vpn ubcMemFis dirty readOnly s = .ok () { s with space := { s.space with
      pageTable := s.space.pageTable.set vpn ⟨vpn, ubcMemFis, true, readOnly, true, dirty⟩ } } := by
  simp [installPage, updatePage_ok h, AddrSpace.setPage, List.set_eq_modify]

theorem putFrame_ok (f : Fin numPhysPages) (bytes : List Byte) :
    putFrame (f.val : ℤ) bytes s = .ok () { s with
      mainMemory := s.mainMemory.putBytes (f * pageSize) bytes } := by
  simp [putFrame]

theorem readExecutable_ok (f : Fin numPhysPages) (h : s.space.pageTable[vpn]? = some e)
    (hf : e.physicalPage = (f.val : ℤ)) :
    readExecutable vpn s = .ok () { s with
      mainMemory := s.mainMemory.putBytes (f * pageSize)
        (s.space.ejecutable.readAt pageSize (noffHeaderSize + vpn * pageSize)) } := by
  simp [readExecutable, page_ok h, hf, putFrame_ok]

theorem setIpt_ok (f : Fin numPhysPages) (v : ℤ) (h : f.val < s.space.iptEntries) :
    setIpt (f.val : ℤ) v s = .ok () { s with space := { s.space with
      ipt := Function.update s.space.ipt f v } } := by
  have hf : 0 ≤ ((f.val : ℕ) : ℤ) ∧ ((f.val : ℕ) : ℤ) < ((numPhysPages : ℕ) : ℤ) := by
    have := f.isLt
    omega
  simp [setIpt, hf, Nat.not_le.mpr h]

theorem setIpt_error {f : ℕ} (v : ℤ) (h : s.space.iptEntries ≤ f) :
    setIpt (f : ℤ) v s = .error .memory s := by
  simp [setIpt, h]

theorem putBytes_nil (mem : Memory) (start : ℕ) : mem.putBytes start [] = mem := by
  funext a
  simp [Memory.putBytes]

def Vm.placed (s : Vm) (vpn : ℕ) (f : Fin numPhysPages) : Vm :=
  { s.loaded vpn f with space := { (s.loaded vpn f).space with ipt := s.space.ipt } }

theorem moveraMemoria_fresh_eq {f : Fin numPhysPages} (hr : s.tlbInRange)
    (hc : s.space.copied = false) (he : s.space.pageTable[vpn]? = some e) (hv : e.valid = false)
    (hd : vpn < s.space.codePages ∨ (syncEntry s.tlb vpn e).dirty = false)
    (hf : s.memoryMap.find = ((f.val : ℤ), s.memoryMap.setBit f)) :
    moveraMemoria vpn s = setIpt f.val vpn (s.placed vpn f) := by
  have he' : (s.space.synced s.tlb).pageTable[vpn]? = some (syncEntry s.tlb vpn e) := by
    rw [synced_getElem?, he, Option.map_some]
  have hv' : (syncEntry s.tlb vpn e).valid = false := by rw [(syncEntry_valid _ _ _).1, hv]
  have hc' : (s.space.synced s.tlb).copied = false := hc
  have hlt := (List.getElem?_eq_some_iff.mp he').1
  have hset : ∀ x, ((s.space.synced s.tlb).pageTable.set vpn x)[vpn]? = some x := by
    intro x
    rw [List.getElem?_set_self hlt]
  simp only [moveraMemoria, EStateM.apply_bind, syncTlb_ok hr, EStateM.apply_get, hc',
    Bool.false_eq_true, if_false,
    page_ok (s := { s with space := s.space.synced s.tlb }) he', EStateM.apply_ite, hv',
    Bool.not_false, Bool.true_and, if_true,
    findFrame_ok (s := { s with space := s.space.synced s.tlb }) _ hf,
    installPage_ok (s := { s with
      space := s.space.synced s.tlb, memoryMap := s.memoryMap.setBit f }) _ _ he']
  have hcode : ((vpn : ℤ) < (divRoundUp (s.space.synced s.tlb).noffH1.code.size pageSize : ℕ)) ↔
      vpn < s.space.codePages := Nat.cast_lt
  have hinit : ((vpn : ℤ) < (divRoundUp (s.space.synced s.tlb).noffH1.initData.size pageSize : ℕ)) ↔
      vpn < s.space.initPages := Nat.cast_lt
  simp only [hcode, hinit]
  by_cases h1 : vpn < s.space.codePages
  · rw [if_pos h1, refillTlb_ok (hset _)]
    dsimp only
    rw [readExecutable_ok f (hset _) rfl]
    refine congrArg (setIpt f.val vpn) ?_
    simp [Vm.placed, Vm.loaded, AddrSpace.freshEntry, AddrSpace.pageBytes, AddrSpace.synced, hc, h1]
  have hd' := hd.resolve_left h1
  simp only [hd', Bool.not_false, if_true]
  by_cases h2 : vpn < s.space.initPages
  · rw [if_neg h1, if_pos h2, refillTlb_ok (hset _)]
    dsimp only
    rw [readExecutable_ok f (hset _) rfl]
    refine congrArg (setIpt f.val vpn) ?_
    simp [Vm.placed, Vm.loaded, AddrSpace.freshEntry, AddrSpace.pageBytes, AddrSpace.synced, hc, h1,
      h2]
  · rw [if_neg h1, if_neg h2, refillTlb_ok (hset _)]
    refine congrArg (setIpt f.val vpn) ?_
    simp [Vm.placed, Vm.loaded, AddrSpace.freshEntry, AddrSpace.pageBytes, AddrSpace.synced, hc, h1,
      h2, putBytes_nil]

theorem moveraMemoria_fresh {f : Fin numPhysPages} (hr : s.tlbInRange)
    (hc : s.space.copied = false) (he : s.space.pageTable[vpn]? = some e) (hv : e.valid = false)
    (hd : vpn < s.space.codePages ∨ (syncEntry s.tlb vpn e).dirty = false)
    (hf : s.memoryMap.find = ((f.val : ℤ), s.memoryMap.setBit f))
    (hi : f.val < s.space.iptEntries) :
    moveraMemoria vpn s = .ok () (s.loaded vpn f) := by
  calc moveraMemoria vpn s
      = setIpt f.val vpn (s.placed vpn f) := moveraMemoria_fresh_eq hr hc he hv hd hf
    _ = .ok () (s.loaded vpn f) := setIpt_ok (s := s.placed vpn f) f vpn hi

theorem Vm.hasFrame.frame (h : s.hasFrame) : ∃ f : Fin numPhysPages,
    s.memoryMap.find = ((f.val : ℤ), s.memoryMap.setBit f) ∧ s.memoryMap.bit f = false ∧
      f.val < s.space.iptEntries := by
  obtain ⟨h0, hlt⟩ := h
  obtain ⟨hfind, -⟩ | ⟨f, hf, hfind, hbit, -⟩ := s.memoryMap.find_cases
  · rw [hfind] at h0
    simp at h0
  · rw [hfind] at hlt
    exact ⟨⟨f, hf⟩, hfind, hbit, Int.ofNat_lt.mp hlt⟩

/-! ### A fault that is not served. -/

theorem moveraMemoria_copied {vpn : ℤ} (hr : s.tlbInRange) (hc : s.space.copied = true) :
    ∃ s', moveraMemoria vpn s = .error .memory s' := by
  have hc' : (s.space.synced s.tlb).copied = true := hc
  refine ⟨{ s with space := s.space.synced s.tlb }, ?_⟩
  simp only [moveraMemoria, EStateM.apply_bind, syncTlb_ok hr, EStateM.apply_get, hc', if_true,
    EStateM.apply_throw]

theorem iptVpn_error {f : Fin numPhysPages} (h : s.space.iptEntries ≤ f) :
    iptVpn f s = .error .memory s := by
  simp only [iptVpn, EStateM.apply_bind, EStateM.apply_get, if_pos h, EStateM.apply_throw]

theorem buscarVictima_error (h : s.space.iptEntries ≤ 1) : buscarVictima s = .error .memory s := by
  have htail : (List.finRange numPhysPages).tail =
      1 :: (List.finRange numPhysPages).tail.tail := by decide
  rw [buscarVictima, htail]
  simp only [sweepFrames, EStateM.apply_bind, iptVpn_error (f := 1) h]

/-- With one entry in the core map a fresh page needs frame 0. -/
theorem moveraMemoria_noEntry (hr : s.tlbInRange) (hc : s.space.copied = false)
    (hone : s.space.iptEntries = 1) (he : s.space.pageTable[vpn]? = some e)
    (hv : e.valid = false)
    (hd : vpn < s.space.codePages ∨ (syncEntry s.tlb vpn e).dirty = false)
    (hf : ¬s.hasFrame) : ∃ s', moveraMemoria vpn s = .error .memory s' := by
  obtain ⟨hfind, -⟩ | ⟨f, hlt, hfind, -⟩ := s.memoryMap.find_cases
  · have he' : (s.space.synced s.tlb).pageTable[vpn]? = some (syncEntry s.tlb vpn e) := by
      rw [synced_getElem?, he, Option.map_some]
    have hv' : (syncEntry s.tlb vpn e).valid = false := by rw [(syncEntry_valid _ _ _).1, hv]
    have hc' : (s.space.synced s.tlb).copied = false := hc
    have hfull : ∀ writeBack, findFrame writeBack { s with space := s.space.synced s.tlb } =
        .error .memory { s with space := s.space.synced s.tlb } := by
      intro writeBack
      have hb := buscarVictima_error (s := { s with space := s.space.synced s.tlb }) hone.le
      simp only [findFrame, EStateM.apply_bind, EStateM.apply_get, hfind, EStateM.apply_modify,
        if_true, hb]
    have hcode : ((vpn : ℤ) < (divRoundUp (s.space.synced s.tlb).noffH1.code.size pageSize : ℕ)) ↔
        vpn < s.space.codePages := Nat.cast_lt
    refine ⟨{ s with space := s.space.synced s.tlb }, ?_⟩
    simp only [moveraMemoria, EStateM.apply_bind, syncTlb_ok hr, EStateM.apply_get, hc',
      Bool.false_eq_true, if_false,
      page_ok (s := { s with space := s.space.synced s.tlb }) he', EStateM.apply_ite, hv',
      Bool.not_false, Bool.true_and, if_true, hfull, hcode]
    by_cases h1 : vpn < s.space.codePages
    · rw [if_pos h1]
    · simp only [hd.resolve_left h1, Bool.not_false, if_neg h1, ite_self]
  · have hge : s.space.iptEntries ≤ f := by
      by_contra hlt'
      refine hf ⟨by rw [hfind]; exact Int.natCast_nonneg f, ?_⟩
      rw [hfind]
      exact Int.ofNat_lt.mpr (not_le.mp hlt')
    refine ⟨_, (moveraMemoria_fresh_eq (f := ⟨f, hlt⟩) hr hc he hv hd hfind).trans
      (setIpt_error _ hge)⟩

end Nachos
