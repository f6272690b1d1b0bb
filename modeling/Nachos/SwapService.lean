import Nachos.VmSystem

/-! A page fault that takes a victim (`addrspace.cc`). `buscarVictima` names a frame, and the page
in the next TLB slot goes to the swap file if it is dirty. The bytes that are written come from
a wrong place, which may lie in front of `mainMemory`; nothing else depends on them, so the read is
a parameter here. -/
namespace Nachos

section By

variable (read : ℤ → Kernel (List Byte))

def swapOutBy : Kernel Unit := do
  let s ← get
  let out := s.tlb s.iter
  let e ← page out.virtualPage
  if e.dirty then
    let (campo, swapMap) := s.swapMap.find
    modify fun s => { s with swapMap := swapMap }
    let source ← page s.iter.val
    let bytes ← read source.physicalPage
    if campo < 0 then throw .assertion
    modify fun s => { s with swap := s.swap.writeAt bytes (campo.toNat * pageSize) }
    let memoryMap ← liftTrap (s.memoryMap.clear out.physicalPage)
    modify fun s => { s with memoryMap := memoryMap }
    updatePage out.virtualPage fun e => { e with physicalPage := campo }
    updatePage out.virtualPage fun e => { e with valid := false }

def findFrameBy (writeBack : Bool) : Kernel ℤ := do
  let s ← get
  let (ubcMemFis, memoryMap) := s.memoryMap.find
  modify fun s => { s with memoryMap := memoryMap }
  if ubcMemFis = -1 then
    let victima ← buscarVictima
    if writeBack then swapOutBy read
    return victima
  else return ubcMemFis

def moveraMemoriaBy (vpn : ℤ) : Kernel Unit := do
  syncTlb
  let s ← get
  if s.space.copied then throw .memory
  let numPages1 := divRoundUp s.space.noffH1.code.size pageSize
  let numPages2 := divRoundUp s.space.noffH1.initData.size pageSize
  let entry ← page vpn
  if vpn < numPages1 then
    if !entry.valid then
      let ubcMemFis ← findFrameBy read false
      installPage vpn ubcMemFis false true
      refillTlb vpn
      readExecutable vpn
      setIpt ubcMemFis vpn
    else refillTlb vpn
  else if vpn < numPages2 then
    if !entry.valid && !entry.dirty then
      let ubcMemFis ← findFrameBy read true
      installPage vpn ubcMemFis false false
      refillTlb vpn
      readExecutable vpn
      setIpt ubcMemFis vpn
    else if entry.valid then refillTlb vpn
    else
      let campoViejo := entry.physicalPage
      let ubcMemFis ← findFrameBy read true
      installPage vpn ubcMemFis true false
      refillTlb vpn
      readSwap vpn campoViejo
      setIpt ubcMemFis vpn
  else
    if !entry.valid && !entry.dirty then
      let ubcMemFis ← findFrameBy read true
      installPage vpn ubcMemFis false false
      refillTlb vpn
      setIpt ubcMemFis vpn
    else if entry.valid then refillTlb vpn
    else
      let campoViejo := entry.physicalPage
      let ubcMemFis ← findFrameBy read true
      installPage vpn ubcMemFis true false
      refillTlb vpn
      readSwap vpn campoViejo
      setIpt ubcMemFis vpn

theorem moveraMemoriaBy_memoryBytes : moveraMemoriaBy memoryBytes = moveraMemoria := rfl

def ReadsOnly : Prop :=
  ∀ start s, (∃ bytes, read start s = .ok bytes s) ∨ ∃ t, read start s = .error t s

end By

theorem memoryBytes_readsOnly : ReadsOnly memoryBytes := by
  intro start s
  simp only [memoryBytes, EStateM.apply_bind, EStateM.apply_get, EStateM.apply_ite]
  split_ifs
  · exact Or.inr ⟨_, rfl⟩
  · exact Or.inl ⟨_, rfl⟩

/-- A read outside `mainMemory` that comes back with `stray`. -/
def strayBytes (stray : List Byte) (start : ℤ) : Kernel (List Byte) := do
  let s ← get
  if start < 0 ∨ memorySize < start + pageSize then return stray
  else return (List.range pageSize).map fun j => s.mainMemory (start.toNat + j)

theorem strayBytes_ok (stray : List Byte) (start : ℤ) (s : Vm) :
    ∃ bytes, strayBytes stray start s = .ok bytes s := by
  simp only [strayBytes, EStateM.apply_bind, EStateM.apply_get, EStateM.apply_ite]
  split_ifs
  · exact ⟨_, rfl⟩
  · exact ⟨_, rfl⟩

/-- An entry without its use bit, which only `buscarVictima` looks at. -/
def TranslationEntry.unused (e : TranslationEntry) : TranslationEntry := { e with use := false }

def Vm.bits (s : Vm) (v : ℕ) : Option TranslationEntry :=
  (s.space.pageTable[v]?).map TranslationEntry.unused

structure Swept (s s' : Vm) : Prop where
  pages : s' = s.withPages s'.space.pageTable
  bits : ∀ v, s'.bits v = s.bits v

variable {s s' s'' : Vm}

theorem Swept.refl (s : Vm) : Swept s s := ⟨rfl, fun _ => rfl⟩

theorem Swept.trans (h : Swept s s') (h' : Swept s' s'') : Swept s s'' := by
  refine ⟨?_, fun v => (h'.bits v).trans (h.bits v)⟩
  rw [h'.pages, h.pages]
  rfl

theorem map_setPage {β : Type} (a : AddrSpace) (n w : ℕ) {f : TranslationEntry → TranslationEntry}
    {g : TranslationEntry → β} (h : n = w → ∀ e, g (f e) = g e) :
    ((a.setPage n f).pageTable[w]?).map g = (a.pageTable[w]?).map g := by
  simp only [AddrSpace.setPage, Int.toNat_natCast, List.getElem?_modify]
  cases a.pageTable[w]? with
  | none => rfl
  | some e =>
    by_cases hn : n = w
    · simp [hn, h hn e]
    · simp [hn]

theorem swept_updatePage {v : ℤ} {f : TranslationEntry → TranslationEntry}
    (h : updatePage v f s = .ok () s') (hf : ∀ e, (f e).unused = e.unused) : Swept s s' := by
  obtain ⟨n, e, rfl, -, rfl⟩ := updatePage_inv h
  exact ⟨rfl, fun w => map_setPage s.space n w fun _ e => hf e⟩

theorem iptVpn_inv {f : Fin numPhysPages} {vpn : ℤ} (h : iptVpn f s = .ok vpn s') :
    vpn = s.space.ipt f ∧ s' = s := by
  simp only [iptVpn, EStateM.apply_bind, EStateM.apply_get, EStateM.apply_ite] at h
  split_ifs at h
  · cases h
  · cases h
    exact ⟨rfl, rfl⟩

theorem swept_sweepFrames {fs : List (Fin numPhysPages)} {r : Option ℤ}
    (h : sweepFrames fs s = .ok r s') :
    Swept s s' ∧ ∀ victima, r = some victima → ∃ k, ∃ (v : ℕ) (e : TranslationEntry),
      s.space.ipt k = v ∧ s.bits v = some e ∧ victima = e.physicalPage := by
  induction fs generalizing s with
  | nil =>
    cases h
    exact ⟨.refl _, nofun⟩
  | cons f fs ih =>
    obtain ⟨vpn, s₂, hvpn, h⟩ := EStateM.bind_eq_ok h
    obtain ⟨rfl, rfl⟩ := iptVpn_inv hvpn
    obtain ⟨e, s₃, hp, h⟩ := EStateM.bind_eq_ok h
    obtain ⟨n, hn, he, hs⟩ := page_inv hp
    rw [hs] at h
    simp only [EStateM.apply_ite] at h
    split_ifs at h
    · obtain ⟨⟨⟩, s₄, hu, h⟩ := EStateM.bind_eq_ok h
      have h₄ := swept_updatePage hu fun _ => rfl
      obtain ⟨h', hv⟩ := ih h
      refine ⟨h₄.trans h', fun victima hr => ?_⟩
      obtain ⟨k, v, e', hk, he', hvic⟩ := hv victima hr
      rw [h₄.bits] at he'
      rw [h₄.pages] at hk
      exact ⟨k, v, e', hk, he', hvic⟩
    · cases h
      refine ⟨.refl _, fun victima hr => ?_⟩
      cases hr
      exact ⟨f, n, e.unused, hn, by rw [Vm.bits, he]; rfl, rfl⟩

theorem swept_buscarVictima {victima : ℤ} (h : buscarVictima s = .ok victima s') :
    Swept s s' ∧ ∃ k, ∃ (v : ℕ) (e : TranslationEntry),
      s.space.ipt k = v ∧ s.bits v = some e ∧ victima = e.physicalPage := by
  obtain ⟨o, s₁, h₁, h⟩ := EStateM.bind_eq_ok h
  obtain ⟨hs₁, hv₁⟩ := swept_sweepFrames h₁
  cases o with
  | some victima =>
    cases h
    exact ⟨hs₁, hv₁ victima rfl⟩
  | none =>
    obtain ⟨o, s₂, h₂, h⟩ := EStateM.bind_eq_ok h
    obtain ⟨hs₂, hv₂⟩ := swept_sweepFrames h₂
    cases o with
    | none => cases h
    | some victima =>
      cases h
      obtain ⟨k, v, e, hk, he, hvic⟩ := hv₂ victima rfl
      rw [hs₁.bits] at he
      rw [hs₁.pages] at hk
      exact ⟨hs₁.trans hs₂, k, v, e, hk, he, hvic⟩

theorem BitMap.clear_inv {numBits : ℕ} {m m' : BitMap numBits} {which : ℤ}
    (h : m.clear which = .ok m') : ∃ i < numBits, which = (i : ℕ) ∧ m' = m.clearBit i := by
  unfold BitMap.clear at h
  split_ifs at h with hr
  rw [BitMap.inRange, decide_eq_true_eq] at hr
  obtain ⟨i, rfl⟩ := Int.eq_ofNat_of_zero_le hr.1
  cases h
  exact ⟨i, by omega, rfl, rfl⟩

theorem liftTrap_inv {α : Type} {x : Except Trap α} {a : α} (h : liftTrap x s = .ok a s') :
    x = .ok a ∧ s' = s := by
  cases x with
  | error t => cases h
  | ok b =>
    cases h
    exact ⟨rfl, rfl⟩

/-- The page in the next TLB slot is clean, or it gets a slot of the swap file and its frame is
given back. -/
theorem swapOutBy_cases {read : ℤ → Kernel (List Byte)} (hread : ReadsOnly read)
    (h : swapOutBy read s = .ok () s') : ∃ (v : ℕ) (e : TranslationEntry),
    (s.tlb s.iter).virtualPage = v ∧ s.space.pageTable[v]? = some e ∧
      (e.dirty = false ∧ s' = s ∨ e.dirty = true ∧ ∃ c g swap, c < numPhysPages * 2 ∧
        s.swapMap.find.1 = (c : ℕ) ∧ s.swapMap.bit c = false ∧
        (s.tlb s.iter).physicalPage = (g : ℕ) ∧ g < numPhysPages ∧
        s' = { s with
          swapMap := s.swapMap.setBit c
          swap := swap
          memoryMap := s.memoryMap.clearBit g
          space := s.space.setPage v fun e => { e with physicalPage := c, valid := false } }) := by
  obtain ⟨_, _, hget, h⟩ := EStateM.bind_eq_ok h
  cases hget
  obtain ⟨e, s₀, hp, h⟩ := EStateM.bind_eq_ok h
  obtain ⟨v, hv, he, hs⟩ := page_inv hp
  rw [hs] at h
  refine ⟨v, e, hv, he, ?_⟩
  simp only [EStateM.apply_ite] at h
  by_cases hd : e.dirty = true
  · rw [if_pos hd] at h
    refine Or.inr ⟨hd, ?_⟩
    obtain ⟨⟨⟩, s₁, h₁, h⟩ := EStateM.bind_eq_ok h
    cases h₁
    obtain ⟨source, s₂, h₂, h⟩ := EStateM.bind_eq_ok h
    obtain ⟨-, -, -, hs₂⟩ := page_inv h₂
    rw [hs₂] at h
    obtain ⟨bytes, s₃, h₃, h⟩ := EStateM.bind_eq_ok h
    obtain ⟨b, hb⟩ | ⟨t, ht⟩ := hread source.physicalPage { s with swapMap := s.swapMap.find.2 }
    · rw [hb] at h₃
      cases h₃
      obtain ⟨hfind, -⟩ | ⟨c, hc, hfind, hbit, -⟩ := s.swapMap.find_cases
      · rw [hfind, if_pos (by norm_num)] at h
        cases h
      · rw [hfind, if_neg (by simp)] at h
        obtain ⟨⟨⟩, s₄, h₄, h⟩ := EStateM.bind_eq_ok h
        cases h₄
        obtain ⟨memoryMap, s₅, h₅, h⟩ := EStateM.bind_eq_ok h
        obtain ⟨hclear, hs₅⟩ := liftTrap_inv h₅
        obtain ⟨g, hg, hphys, rfl⟩ := BitMap.clear_inv hclear
        rw [hs₅] at h
        obtain ⟨⟨⟩, s₆, h₆, h⟩ := EStateM.bind_eq_ok h
        cases h₆
        obtain ⟨⟨⟩, s₇, h₇, h₈⟩ := EStateM.bind_eq_ok h
        obtain ⟨v₇, e₇, hv₇, -, hs₇⟩ := updatePage_inv h₇
        obtain ⟨v₈, e₈, hv₈, -, hs₈⟩ := updatePage_inv h₈
        obtain rfl : v = v₇ := by exact_mod_cast hv.symm.trans hv₇
        obtain rfl : v = v₈ := by exact_mod_cast hv.symm.trans hv₈
        subst hs₈ hs₇
        refine ⟨c, g, s.swap.writeAt bytes (c * pageSize), hc, by rw [hfind], hbit, hphys, hg, ?_⟩
        simp only [AddrSpace.setPage, List.modify_modify_eq, Int.toNat_natCast]
        rfl
    · rw [ht] at h₃
      cases h₃
  · rw [if_neg hd] at h
    cases h
    exact Or.inl ⟨by simpa using hd, rfl⟩

structure SameService (s s' : Vm) : Prop where
  tlb : s'.tlb = s.tlb
  iter : s'.iter = s.iter
  lastFault : s'.lastFault = s.lastFault
  ipt : s'.space.ipt = s.space.ipt
  entries : s'.space.iptEntries = s.space.iptEntries
  copied : s'.space.copied = s.space.copied
  noffH1 : s'.space.noffH1 = s.space.noffH1
  length : s'.space.pageTable.length = s.space.pageTable.length

theorem SameService.refl (s : Vm) : SameService s s := ⟨rfl, rfl, rfl, rfl, rfl, rfl, rfl, rfl⟩

theorem SameService.trans (h : SameService s s') (h' : SameService s' s'') : SameService s s'' :=
  ⟨h'.tlb.trans h.tlb, h'.iter.trans h.iter, h'.lastFault.trans h.lastFault, h'.ipt.trans h.ipt,
    h'.entries.trans h.entries, h'.copied.trans h.copied, h'.noffH1.trans h.noffH1,
    h'.length.trans h.length⟩

def TranslationEntry.swappedTo (e : TranslationEntry) (c : ℕ) : TranslationEntry :=
  { e with physicalPage := c, valid := false }

inductive FrameFound (s : Vm) (writeBack : Bool) : ℤ → Vm → Prop
  /-- A free frame. -/
  | free {i : ℕ} {s' : Vm} (lt : i < numPhysPages) (clear : s.memoryMap.bit i = false)
      (below : ∀ j < i, s.memoryMap.bit j = true) (same : SameService s s')
      (bits : ∀ v, s'.bits v = s.bits v) (memoryMap : s'.memoryMap = s.memoryMap.setBit i)
      (swapMap : s'.swapMap = s.swapMap) : FrameFound s writeBack i s'
  /-- The frame of a page in the core map, which is not told. -/
  | stolen {k : Fin numPhysPages} {v : ℕ} {e : TranslationEntry} {s' : Vm}
      (full : ∀ i < numPhysPages, s.memoryMap.bit i = true) (core : s.space.ipt k = v)
      (victim : s.bits v = some e) (same : SameService s s') (bits : ∀ v, s'.bits v = s.bits v)
      (memoryMap : s'.memoryMap = s.memoryMap) (swapMap : s'.swapMap = s.swapMap) :
      FrameFound s writeBack e.physicalPage s'
  /-- The same, and the page in the next TLB slot goes to the swap file. -/
  | swapped {k : Fin numPhysPages} {v w c g : ℕ} {e e' : TranslationEntry} {s' : Vm}
      (back : writeBack = true) (full : ∀ i < numPhysPages, s.memoryMap.bit i = true)
      (core : s.space.ipt k = v) (victim : s.bits v = some e) (same : SameService s s')
      (slot : (s.tlb s.iter).virtualPage = w) (out : s.bits w = some e') (dirty : e'.dirty = true)
      (frame : (s.tlb s.iter).physicalPage = g) (lt : g < numPhysPages)
      (range : c < numPhysPages * 2) (find : s.swapMap.find.1 = (c : ℕ))
      (clear : s.swapMap.bit c = false)
      (bits : ∀ v, s'.bits v = if v = w then some (e'.swappedTo c) else s.bits v)
      (memoryMap : s'.memoryMap = s.memoryMap.clearBit g)
      (swapMap : s'.swapMap = s.swapMap.setBit c) : FrameFound s writeBack e.physicalPage s'

theorem Swept.same (h : Swept s s') : SameService s s' := by
  have hlen : s'.space.pageTable.length = s.space.pageTable.length := by
    have hmap : s'.space.pageTable.map TranslationEntry.unused =
        s.space.pageTable.map TranslationEntry.unused := by
      apply List.ext_getElem?
      intro v
      rw [List.getElem?_map, List.getElem?_map]
      exact h.bits v
    simpa using congrArg List.length hmap
  refine ⟨?_, ?_, ?_, ?_, ?_, ?_, ?_, hlen⟩ <;> rw [h.pages] <;> rfl

theorem Swept.maps (h : Swept s s') : s'.memoryMap = s.memoryMap ∧ s'.swapMap = s.swapMap := by
  rw [h.pages]
  exact ⟨rfl, rfl⟩

theorem bits_setPage {v w : ℕ} {e : TranslationEntry} {f : TranslationEntry → TranslationEntry}
    (he : s.space.pageTable[w]? = some e) :
    ((s.space.setPage w f).pageTable[v]?).map TranslationEntry.unused =
      if v = w then some (f e).unused else s.bits v := by
  simp only [AddrSpace.setPage, Int.toNat_natCast, List.getElem?_modify]
  by_cases hv : v = w
  · subst hv
    simp [he]
  · rw [if_neg hv]
    simp [Ne.symm hv, Vm.bits]

theorem frameFound {read : ℤ → Kernel (List Byte)} (hread : ReadsOnly read) {writeBack : Bool}
    {f : ℤ} (h : findFrameBy read writeBack s = .ok f s') : FrameFound s writeBack f s' := by
  simp only [findFrameBy, EStateM.apply_bind, EStateM.apply_get] at h
  obtain ⟨hfind, hfull⟩ | ⟨i, hi, hfind, hbit, hbelow⟩ := s.memoryMap.find_cases
  · rw [hfind] at h
    simp only [EStateM.apply_bind, EStateM.apply_modify, if_true] at h
    obtain ⟨victima, s₁, h₁, h⟩ := EStateM.bind_eq_ok h
    obtain ⟨hs₁, k, v, e, hk, he, rfl⟩ := swept_buscarVictima h₁
    obtain ⟨hmap, hswap⟩ := hs₁.maps
    cases writeBack with
    | false =>
      cases h
      exact .stolen hfull hk he hs₁.same hs₁.bits hmap hswap
    | true =>
      obtain ⟨⟨⟩, s₂, h₂, h⟩ := EStateM.bind_eq_ok h
      cases h
      have hsame := hs₁.same
      obtain ⟨w, e', hw, he', ⟨-, rfl⟩ | ⟨hd, c, g, swap, hc, hfirst, hbit, hg, hlt, rfl⟩⟩ :=
        swapOutBy_cases hread h₂
      · exact .stolen hfull hk he hsame hs₁.bits hmap hswap
      · have hout : s₁.bits w = some e'.unused := by rw [Vm.bits, he', Option.map_some]
        rw [hsame.tlb, hsame.iter] at hw hg
        rw [hswap] at hbit hfirst
        have hd' : e'.unused.dirty = true := hd
        refine .swapped rfl hfull hk he ?_ hw ?_ hd' hg hlt hc hfirst hbit ?_ ?_ ?_
        · refine hsame.trans ⟨rfl, rfl, rfl, rfl, rfl, rfl, rfl, ?_⟩
          simp [AddrSpace.setPage]
        · rw [← hs₁.bits]
          exact hout
        · intro v'
          rw [← hs₁.bits]
          exact bits_setPage he'
        · dsimp only
          rw [hmap]
        · dsimp only
          rw [hswap]
  · rw [hfind] at h
    simp only [EStateM.apply_bind, EStateM.apply_modify, EStateM.apply_ite] at h
    rw [if_neg (by omega)] at h
    cases h
    exact .free hi hbit hbelow ⟨rfl, rfl, rfl, rfl, rfl, rfl, rfl, rfl⟩ (fun _ => rfl) rfl rfl

theorem setIpt_inv {frame v : ℤ} (h : setIpt frame v s = .ok () s') :
    ∃ f : Fin numPhysPages, frame = (f.val : ℕ) ∧
      s' = { s with space := { s.space with ipt := Function.update s.space.ipt f v } } := by
  by_cases hentry : (s.space.iptEntries : ℤ) ≤ frame
  · simp [setIpt, hentry] at h
  simp only [setIpt, EStateM.apply_bind, EStateM.apply_get, if_neg hentry] at h
  split_ifs at h with hf
  · cases h
    exact ⟨⟨frame.toNat, by omega⟩, (Int.toNat_of_nonneg hf.1).symm, rfl⟩
  · cases h

theorem putFrame_inv {frame : ℤ} {bytes : List Byte} (h : putFrame frame bytes s = .ok () s') :
    ∃ mem, s' = { s with mainMemory := mem } := by
  simp only [putFrame, EStateM.apply_bind, EStateM.apply_ite] at h
  split_ifs at h
  · cases h
  · cases h
    exact ⟨_, rfl⟩

theorem readExecutable_inv {v : ℤ} (h : readExecutable v s = .ok () s') :
    ∃ mem, s' = { s with mainMemory := mem } := by
  obtain ⟨e, s₁, h₁, h⟩ := EStateM.bind_eq_ok h
  obtain ⟨-, -, -, hs₁⟩ := page_inv h₁
  rw [hs₁] at h
  exact putFrame_inv h

theorem readSwap_inv {v campo : ℤ} (h : readSwap v campo s = .ok () s') :
    ∃ mem, ∃ c < numPhysPages * 2, campo = (c : ℕ) ∧
      s' = { s with mainMemory := mem, swapMap := s.swapMap.clearBit c } := by
  obtain ⟨e, s₁, h₁, h⟩ := EStateM.bind_eq_ok h
  obtain ⟨-, -, -, hs₁⟩ := page_inv h₁
  rw [hs₁] at h
  obtain ⟨_, _, hget, h⟩ := EStateM.bind_eq_ok h
  cases hget
  simp only [EStateM.apply_ite] at h
  split_ifs at h
  · cases h
  · obtain ⟨⟨⟩, s₂, h₂, h⟩ := EStateM.bind_eq_ok h
    obtain ⟨mem, rfl⟩ := putFrame_inv h₂
    obtain ⟨swapMap, s₃, h₃, h⟩ := EStateM.bind_eq_ok h
    obtain ⟨hclear, hs₃⟩ := liftTrap_inv h₃
    obtain ⟨c, hc, hcampo, rfl⟩ := BitMap.clear_inv hclear
    rw [hs₃] at h
    cases h
    exact ⟨mem, c, hc, hcampo, rfl⟩

/-- What a fault on the absent page `n` leaves: the page is in frame `f`, in the next TLB slot and
in the core map; `s₁` is the state with the frame found, and `d` says whether the page came from
the swap file. -/
structure Loads (s s₁ s' : Vm) (n : ℕ) (e : TranslationEntry) (f : Fin numPhysPages) (d : Bool) :
    Prop where
  dirty : d = (decide (s.space.codePages ≤ n) && (syncEntry s.tlb n e).dirty)
  found : FrameFound { s with space := s.space.synced s.tlb } (decide (s.space.codePages ≤ n))
    f.val s₁
  tlb : s'.tlb = Function.update s.tlb s.iter
    ⟨n, f.val, true, decide (n < s.space.codePages), true, d⟩
  iter : s'.iter = s.iter + 1
  lastFault : s'.lastFault = s.lastFault
  ipt : s'.space.ipt = Function.update s.space.ipt f n
  entries : s'.space.iptEntries = s.space.iptEntries
  copied : s'.space.copied = s.space.copied
  noffH1 : s'.space.noffH1 = s.space.noffH1
  length : s'.space.pageTable.length = s.space.pageTable.length
  bits : ∀ v, s'.bits v =
    if v = n then some ⟨n, f.val, true, decide (n < s.space.codePages), false, d⟩ else s₁.bits v
  memoryMap : s'.memoryMap = s₁.memoryMap
  swapMap : d = false ∧ s'.swapMap = s₁.swapMap ∨ d = true ∧ ∃ c < numPhysPages * 2,
    e.physicalPage = (c : ℕ) ∧ s'.swapMap = s₁.swapMap.clearBit c

theorem FrameFound.same {writeBack : Bool} {f : ℤ} (h : FrameFound s writeBack f s') :
    SameService s s' := by
  cases h <;> assumption

theorem install_inv {n : ℕ} {f : ℤ} {d readOnly : Bool} {s₁ s₂ s₃ : Vm} {mem : Memory}
    {swapMap : BitMap (numPhysPages * 2)} (h₂ : installPage n f d readOnly s₁ = .ok () s₂)
    (h₃ : refillTlb n s₂ = .ok () s₃)
    (h : setIpt f n { s₃ with mainMemory := mem, swapMap := swapMap } = .ok () s') :
    ∃ f' : Fin numPhysPages, f = (f'.val : ℕ) ∧ n < s₁.space.pageTable.length ∧
      s' = { s₁ with
        mainMemory := mem
        swapMap := swapMap
        tlb := Function.update s₁.tlb s₁.iter ⟨n, f'.val, true, readOnly, true, d⟩
        iter := s₁.iter + 1
        space := { s₁.space with
          pageTable := s₁.space.pageTable.set n ⟨n, f'.val, true, readOnly, true, d⟩
          ipt := Function.update s₁.space.ipt f' n } } := by
  obtain ⟨n', e, hn, he, -⟩ := updatePage_inv h₂
  obtain rfl : n = n' := by exact_mod_cast hn
  rw [installPage_ok d readOnly he] at h₂
  cases h₂
  have hlt := (List.getElem?_eq_some_iff.mp he).1
  rw [refillTlb_ok (List.getElem?_set_self hlt)] at h₃
  cases h₃
  obtain ⟨f', rfl, rfl⟩ := setIpt_inv h
  exact ⟨f', rfl, hlt, rfl⟩

theorem bits_set {v n : ℕ} {e : TranslationEntry} (hn : n < s.space.pageTable.length) :
    ((s.space.pageTable.set n e)[v]?).map TranslationEntry.unused =
      if v = n then some e.unused else s.bits v := by
  by_cases hv : v = n
  · rw [hv, if_pos rfl, List.getElem?_set_self hn]
    rfl
  · rw [if_neg hv, List.getElem?_set_ne (Ne.symm hv)]
    rfl

theorem refill_swapMap {n : ℕ} {f : ℤ} {d readOnly : Bool} {s₁ s₂ s₃ : Vm}
    (h₂ : installPage n f d readOnly s₁ = .ok () s₂) (h₃ : refillTlb n s₂ = .ok () s₃) :
    s₃.swapMap = s₁.swapMap := by
  obtain ⟨n', e, hn, he, -⟩ := updatePage_inv h₂
  obtain rfl : n = n' := by exact_mod_cast hn
  rw [installPage_ok d readOnly he] at h₂
  cases h₂
  rw [refillTlb_ok (List.getElem?_set_self (List.getElem?_eq_some_iff.mp he).1)] at h₃
  cases h₃
  rfl

theorem loads_install {read : ℤ → Kernel (List Byte)} (hread : ReadsOnly read) {n : ℕ} {f : ℤ}
    {e : TranslationEntry} {d writeBack readOnly : Bool} {s₁ s₂ s₃ : Vm} {mem : Memory}
    {swapMap : BitMap (numPhysPages * 2)}
    (h₁ : findFrameBy read writeBack { s with space := s.space.synced s.tlb } = .ok f s₁)
    (h₂ : installPage n f d readOnly s₁ = .ok () s₂) (h₃ : refillTlb n s₂ = .ok () s₃)
    (h : setIpt f n { s₃ with mainMemory := mem, swapMap := swapMap } = .ok () s')
    (hcode : writeBack = decide (s.space.codePages ≤ n) ∧ readOnly = decide (n < s.space.codePages))
    (hd : d = (decide (s.space.codePages ≤ n) && (syncEntry s.tlb n e).dirty))
    (hswap : d = false ∧ swapMap = s₃.swapMap ∨ d = true ∧ ∃ c < numPhysPages * 2,
      e.physicalPage = (c : ℕ) ∧ swapMap = s₃.swapMap.clearBit c) :
    ∃ s₁ f d, Loads s s₁ s' n e f d := by
  obtain ⟨rfl, rfl⟩ := hcode
  have hfound := frameFound hread h₁
  have hsame := hfound.same
  rw [refill_swapMap h₂ h₃] at hswap
  obtain ⟨f', rfl, hn, rfl⟩ := install_inv h₂ h₃ h
  refine ⟨s₁, f', d, hd, hfound, ?_, ?_, hsame.lastFault, ?_,
    hsame.entries, hsame.copied, hsame.noffH1, ?_,
    fun v => bits_set hn, rfl, hswap⟩
  · dsimp only
    rw [hsame.tlb, hsame.iter]
  · dsimp only
    rw [hsame.iter]
  · dsimp only
    rw [hsame.ipt]
    rfl
  · rw [List.length_set, hsame.length]
    exact List.length_mapIdx

/-- Every branch of `MoveraMemoria` for a page that is not in memory. -/
theorem loads_moveraMemoria {read : ℤ → Kernel (List Byte)} (hread : ReadsOnly read) {n : ℕ}
    {e : TranslationEntry} (hr : s.tlbInRange) (he : s.space.pageTable[n]? = some e)
    (hv : e.valid = false) (h : moveraMemoriaBy read n s = .ok () s') :
    ∃ s₁ f d, Loads s s₁ s' n e f d := by
  have he' : (s.space.synced s.tlb).pageTable[n]? = some (syncEntry s.tlb n e) := by
    rw [synced_getElem?, he, Option.map_some]
  obtain ⟨hv', hp', -⟩ := syncEntry_valid s.tlb n e
  rw [hv] at hv'
  obtain ⟨⟨⟩, _, h₀, h⟩ := EStateM.bind_eq_ok h
  rw [syncTlb_ok hr] at h₀
  cases h₀
  obtain ⟨_, _, hget, h⟩ := EStateM.bind_eq_ok h
  cases hget
  split_ifs at h
  · cases h
  obtain ⟨entry, _, hpage, h⟩ := EStateM.bind_eq_ok h
  rw [page_ok he'] at hpage
  cases hpage
  simp only [hv', Bool.not_false, Bool.true_and, if_true, Bool.false_eq_true, if_false,
    EStateM.apply_ite] at h
  have hcode : ((n : ℤ) < (divRoundUp (s.space.synced s.tlb).noffH1.code.size pageSize : ℕ)) ↔
      n < s.space.codePages := Nat.cast_lt
  by_cases hn : n < s.space.codePages
  · rw [if_pos (hcode.mpr hn)] at h
    obtain ⟨f, s₁, h₁, h⟩ := EStateM.bind_eq_ok h
    obtain ⟨⟨⟩, s₂, h₂, h⟩ := EStateM.bind_eq_ok h
    obtain ⟨⟨⟩, s₃, h₃, h⟩ := EStateM.bind_eq_ok h
    obtain ⟨⟨⟩, s₄, h₄, h⟩ := EStateM.bind_eq_ok h
    obtain ⟨mem, rfl⟩ := readExecutable_inv h₄
    exact loads_install hread h₁ h₂ h₃ h ⟨by simp [hn], by simp [hn]⟩ (by simp [hn])
      (Or.inl ⟨rfl, rfl⟩)
  · have hwb : true = decide (s.space.codePages ≤ n) ∧ false = decide (n < s.space.codePages) := by
      simp [hn, not_lt.mp hn]
    rw [if_neg (hcode.not.mpr hn)] at h
    cases hd : (syncEntry s.tlb n e).dirty with
    | false =>
      simp only [hd, Bool.not_false, if_true] at h
      have hd' : false = (decide (s.space.codePages ≤ n) && (syncEntry s.tlb n e).dirty) := by
        rw [hd, Bool.and_false]
      split_ifs at h
      · obtain ⟨f, s₁, h₁, h⟩ := EStateM.bind_eq_ok h
        obtain ⟨⟨⟩, s₂, h₂, h⟩ := EStateM.bind_eq_ok h
        obtain ⟨⟨⟩, s₃, h₃, h⟩ := EStateM.bind_eq_ok h
        obtain ⟨⟨⟩, s₄, h₄, h⟩ := EStateM.bind_eq_ok h
        obtain ⟨mem, rfl⟩ := readExecutable_inv h₄
        exact loads_install hread h₁ h₂ h₃ h hwb hd' (Or.inl ⟨rfl, rfl⟩)
      · obtain ⟨f, s₁, h₁, h⟩ := EStateM.bind_eq_ok h
        obtain ⟨⟨⟩, s₂, h₂, h⟩ := EStateM.bind_eq_ok h
        obtain ⟨⟨⟩, s₃, h₃, h⟩ := EStateM.bind_eq_ok h
        exact loads_install hread h₁ h₂ h₃ h hwb hd' (Or.inl ⟨rfl, rfl⟩)
    | true =>
      simp only [hd, Bool.not_true, Bool.false_eq_true, if_false, ite_self] at h
      have hd' : true = (decide (s.space.codePages ≤ n) && (syncEntry s.tlb n e).dirty) := by
        rw [hd, Bool.and_true]
        exact hwb.1
      obtain ⟨f, s₁, h₁, h⟩ := EStateM.bind_eq_ok h
      obtain ⟨⟨⟩, s₂, h₂, h⟩ := EStateM.bind_eq_ok h
      obtain ⟨⟨⟩, s₃, h₃, h⟩ := EStateM.bind_eq_ok h
      obtain ⟨⟨⟩, s₄, h₄, h⟩ := EStateM.bind_eq_ok h
      obtain ⟨mem, c, hc, hcampo, rfl⟩ := readSwap_inv h₄
      exact loads_install hread h₁ h₂ h₃ h hwb hd'
        (Or.inr ⟨rfl, c, hc, hp'.symm.trans hcampo, rfl⟩)

end Nachos
