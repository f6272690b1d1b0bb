import Nachos.FaultService

/-! The memory image that an executable stands for, and the page of it that `MoveraMemoria` makes
of a first fault (`addrspace.cc` with `VM`). The handler takes pages from the file by page number:
those below the number of code pages, and those below the number of pages that the initialized
data would have on its own. It zeroes no frame. -/
namespace Nachos

def Segment.holds (g : Segment) (a : ℕ) : Prop := g.virtualAddr ≤ a ∧ a < g.virtualAddr + g.size

instance (g : Segment) (a : ℕ) : Decidable (g.holds a) := inferInstanceAs (Decidable (_ ∧ _))

def Segment.byte (g : Segment) (file : HostFile) (a : ℕ) : Byte :=
  (file[g.inFileAddr + (a - g.virtualAddr)]?).getD 0

/-- What a program starts with at an address. -/
def NoffHeader.image (h : NoffHeader) (file : HostFile) (a : ℕ) : Byte :=
  if h.code.holds a then h.code.byte file a
  else if h.initData.holds a then h.initData.byte file a
  else 0

/-- The file is the header, the code and the initialized data, and the segments lie one behind the
other from address 0. The addresses of an empty segment mean nothing. -/
structure NoffHeader.Contiguous (h : NoffHeader) (file : HostFile) : Prop where
  code : 0 < h.code.size → h.code.virtualAddr = 0 ∧ h.code.inFileAddr = noffHeaderSize
  initData : 0 < h.initData.size → h.initData.virtualAddr = h.code.size ∧
    h.initData.inFileAddr = noffHeaderSize + h.code.size
  uninitData : 0 < h.uninitData.size →
    h.uninitData.virtualAddr = h.code.size + h.initData.size
  length : file.length = noffHeaderSize + h.code.size + h.initData.size

variable {h : NoffHeader} {file : HostFile}

theorem NoffHeader.Contiguous.code_holds (hl : h.Contiguous file) {a : ℕ} :
    h.code.holds a ↔ a < h.code.size := by
  constructor
  · rintro ⟨hge, hlt⟩
    have := (hl.code (by omega)).1
    omega
  · intro ha
    have := (hl.code (by omega)).1
    exact ⟨by omega, by omega⟩

theorem NoffHeader.Contiguous.initData_holds (hl : h.Contiguous file) {a : ℕ} :
    h.initData.holds a ↔ h.code.size ≤ a ∧ a < h.code.size + h.initData.size := by
  constructor
  · rintro ⟨hge, hlt⟩
    have := (hl.initData (by omega)).1
    omega
  · rintro ⟨hge, hlt⟩
    have := (hl.initData (by omega)).1
    exact ⟨by omega, by omega⟩

theorem NoffHeader.Contiguous.image_lt (hl : h.Contiguous file) {a : ℕ}
    (ha : a < h.code.size + h.initData.size) :
    h.image file a = (file[noffHeaderSize + a]?).getD 0 := by
  unfold image Segment.byte
  by_cases hc : a < h.code.size
  · obtain ⟨hv, hf⟩ := hl.code (by omega)
    rw [if_pos (hl.code_holds.mpr hc), hv, hf, Nat.sub_zero]
  · obtain ⟨hv, hf⟩ := hl.initData (by omega)
    rw [if_neg (mt hl.code_holds.mp hc), if_pos (hl.initData_holds.mpr ⟨by omega, ha⟩), hv, hf]
    congr 2
    omega

theorem NoffHeader.Contiguous.image_ge (hl : h.Contiguous file) {a : ℕ}
    (ha : h.code.size + h.initData.size ≤ a) : h.image file a = 0 := by
  rw [image, if_neg, if_neg]
  · rw [hl.initData_holds]
    omega
  · rw [hl.code_holds]
    omega

theorem lt_divRoundUp {v n : ℕ} : v < divRoundUp n pageSize ↔ v * pageSize < n := by
  unfold divRoundUp
  simp only [pageSize]
  split_ifs <;> omega

/-- A first fault on a page while a frame is free: the page table has the page as the constructor
left it, and the TLB has not seen it. -/
structure FirstFault (h : NoffHeader) (file : HostFile) (vpn : ℕ) (s : Vm) : Prop where
  header : s.space.noffH1 = h
  executable : s.space.ejecutable = file
  entry : s.space.pageTable[vpn]? = some ⟨vpn, -1, false, false, false, false⟩
  inRange : s.tlbInRange
  clean : ∀ i, (s.tlb i).virtualPage = vpn → (s.tlb i).valid = false ∧ (s.tlb i).dirty = false
  made : s.space.copied = false
  free : ∃ f < numPhysPages, s.memoryMap.bit f = false

/-- The state that the fault leaves. The write to `ipt` comes last: where `ipt` has no entry for the
frame, this is the state before that write. -/
def Vm.serves (s : Vm) (vpn : ℕ) (s' : Vm) : Prop :=
  moveraMemoria vpn s = .ok () s' ∨ ¬s.hasFrame ∧ moveraMemoria vpn s = .error .memory s'

/-- The TLB entry shows the image of the page, and lets a program write to it unless the page lies
in the code. -/
structure Shows (h : NoffHeader) (file : HostFile) (vpn : ℕ) (s : Vm) (e : TranslationEntry) :
    Prop where
  valid : e.valid = true
  virtualPage : e.virtualPage = vpn
  bytes : ∀ offset < pageSize, s.mainMemory (e.physicalPage.toNat * pageSize + offset) =
    h.image file (vpn * pageSize + offset)
  writable : (∃ offset < pageSize, ¬h.code.holds (vpn * pageSize + offset)) → e.readOnly = false

/-- The page lies in the code; or it lies in code and initialized data, starts behind the code,
and its number is that of a page of the initialized data. -/
def PageServed (h : NoffHeader) (vpn : ℕ) : Prop :=
  (vpn + 1) * pageSize ≤ h.code.size ∨
    (h.code.size ≤ vpn * pageSize ∧ vpn < divRoundUp h.initData.size pageSize ∧
      (vpn + 1) * pageSize ≤ h.code.size + h.initData.size)

theorem FirstFault.placed {vpn : ℕ} {s : Vm} (hf : FirstFault h file vpn s) :
    ∃ f : Fin numPhysPages, s.memoryMap.find = ((f.val : ℤ), s.memoryMap.setBit f) ∧
      moveraMemoria vpn s = setIpt f.val vpn (s.placed vpn f) := by
  obtain ⟨c, hc, hclear⟩ := hf.free
  obtain ⟨-, hfull⟩ | ⟨f, hlt, hfind, -⟩ := s.memoryMap.find_cases
  · rw [hfull c hc] at hclear
    cases hclear
  refine ⟨⟨f, hlt⟩, hfind, moveraMemoria_fresh_eq hf.inRange hf.made hf.entry rfl (.inr ?_) hfind⟩
  have hslot : ∀ (i : Fin tlbSize) (e : TranslationEntry), e.dirty = false →
      (syncSlot (s.tlb i) vpn e).dirty = false := by
    intro i e he
    unfold syncSlot
    split_ifs with hv
    · exact (hf.clean i hv).2
    · exact he
  exact hslot 3 _ (hslot 2 _ (hslot 1 _ (hslot 0 _ rfl)))

theorem FirstFault.serve {vpn : ℕ} {s : Vm} (hf : FirstFault h file vpn s) :
    ∃ (f : Fin numPhysPages) (s' : Vm), s.serves vpn s' ∧
      s'.mainMemory = (s.loaded vpn f).mainMemory ∧ s'.tlb = (s.loaded vpn f).tlb := by
  obtain ⟨f, hfind, hmovera⟩ := hf.placed
  by_cases hent : f.val < s.space.iptEntries
  · exact ⟨f, _, .inl (hmovera.trans (setIpt_ok (s := s.placed vpn f) f vpn hent)), rfl, rfl⟩
  · have hnone : ¬s.hasFrame := by
      rintro ⟨-, hlt⟩
      rw [hfind] at hlt
      exact hent (Int.ofNat_lt.mp hlt)
    exact ⟨f, _, .inr ⟨hnone, hmovera.trans (setIpt_error _ (not_lt.mp hent))⟩, rfl, rfl⟩

theorem FirstFault.serve_of_hasFrame {vpn : ℕ} {s : Vm} (hf : FirstFault h file vpn s)
    (hframe : s.hasFrame) : ∃ f, moveraMemoria vpn s = .ok () (s.loaded vpn f) := by
  obtain ⟨f, hfind, hmovera⟩ := hf.placed
  have hent : f.val < s.space.iptEntries := by
    have hlt := hframe.2
    rw [hfind] at hlt
    exact Int.ofNat_lt.mp hlt
  exact ⟨f, hmovera.trans (setIpt_ok (s := s.placed vpn f) f vpn hent)⟩

theorem loaded_slot (s : Vm) (vpn : ℕ) (f : Fin numPhysPages) :
    (s.loaded vpn f).tlb s.iter = s.space.freshEntry vpn f := Function.update_self ..

theorem loaded_byte (s : Vm) (vpn : ℕ) (f : Fin numPhysPages) (offset : ℕ) :
    (s.loaded vpn f).mainMemory (f * pageSize + offset) =
      ((s.space.pageBytes vpn)[offset]?).getD (s.mainMemory (f * pageSize + offset)) := by
  simp [Vm.loaded, Memory.putBytes]

theorem readAt_getElem? (f : HostFile) {n position j : ℕ} (hj : j < n) :
    (f.readAt n position)[j]? = f[position + j]? := by
  rw [HostFile.readAt, List.getElem?_take_of_lt hj, List.getElem?_drop]

def filledWith (h : NoffHeader) (file : HostFile) (b : Byte) : Vm where
  mainMemory := fun _ => b
  tlb := fun _ => ⟨0, 0, false, false, false, false⟩
  memoryMap := .empty _
  swapMap := .empty _
  swap := []
  iter := 0
  lastFault := -1
  space := .new h file

theorem firstFault_filledWith (file : HostFile) {vpn : ℕ} (hv : vpn < h.numPages) (b : Byte) :
    FirstFault h file vpn (filledWith h file b) where
  header := rfl
  executable := rfl
  entry := by simp [filledWith, AddrSpace.new, hv]
  inRange i := by
    simp only [filledWith, AddrSpace.new, List.length_map, List.length_range]
    omega
  clean _ _ := ⟨rfl, rfl⟩
  made := rfl
  free := ⟨0, by decide, BitMap.bit_empty 0⟩

theorem hasFrame_filledWith (file : HostFile) (b : Byte) : (filledWith h file b).hasFrame := by
  have hfind : (BitMap.empty numPhysPages).find.1 = 0 := by decide
  change 0 ≤ (BitMap.empty numPhysPages).find.1 ∧ (BitMap.empty numPhysPages).find.1 < 1
  rw [hfind]
  decide

theorem served_shows (hl : h.Contiguous file) {vpn : ℕ} (hserved : PageServed h vpn) {s : Vm}
    (hf : FirstFault h file vpn s) (f : Fin numPhysPages) :
    Shows h file vpn (s.loaded vpn f) (s.space.freshEntry vpn f) := by
  have hend : (vpn + 1) * pageSize ≤ h.code.size + h.initData.size := by
    unfold PageServed at hserved
    omega
  have hpage : vpn < s.space.codePages ∨ vpn < s.space.initPages := by
    rw [AddrSpace.codePages, AddrSpace.initPages, hf.header, lt_divRoundUp]
    obtain hcode | ⟨-, hinit, -⟩ := hserved
    · left
      simp only [pageSize] at *
      omega
    · exact .inr hinit
  refine ⟨rfl, rfl, fun offset ho => ?_, ?_⟩
  · have ha : vpn * pageSize + offset < h.code.size + h.initData.size := by
      simp only [pageSize] at *
      omega
    rw [hl.image_lt ha]
    change (s.loaded vpn f).mainMemory (f * pageSize + offset) = _
    rw [loaded_byte, AddrSpace.pageBytes, if_pos hpage, readAt_getElem? _ ho, hf.executable,
      Nat.add_assoc, List.getElem?_eq_getElem (by rw [hl.length]; omega)]
    rfl
  · rintro ⟨offset, ho, hnot⟩
    rw [hl.code_holds] at hnot
    have hcode : ¬vpn < s.space.codePages := by
      rw [AddrSpace.codePages, hf.header, lt_divRoundUp]
      unfold PageServed at hserved
      simp only [pageSize] at *
      omega
    simp [AddrSpace.freshEntry, hcode]

theorem served_of_shows (hl : h.Contiguous file) {vpn : ℕ}
    (hall : ∀ b, ∃ f : Fin numPhysPages, Shows h file vpn ((filledWith h file b).loaded vpn f)
      ((filledWith h file b).space.freshEntry vpn f)) : PageServed h vpn := by
  have hcode : vpn * pageSize < h.code.size → (vpn + 1) * pageSize ≤ h.code.size := by
    intro hlt
    obtain ⟨f, hs⟩ := hall 0
    by_contra hend
    have hro := hs.writable ⟨pageSize - 1, by norm_num, by
      rw [hl.code_holds]
      simp only [pageSize] at *
      omega⟩
    have hpage : vpn < (filledWith h file 0).space.codePages := lt_divRoundUp.mpr hlt
    change decide (vpn < (filledWith h file 0).space.codePages) = false at hro
    rw [decide_eq_true hpage] at hro
    cases hro
  -- a byte that the file does not supply would have to be the one the frame held
  have hold : ∀ offset < pageSize,
      ¬(((filledWith h file 0).space.pageBytes vpn)[offset]? = none) := by
    intro offset ho hnone
    obtain ⟨f, hs⟩ := hall (h.image file (vpn * pageSize + offset) + 1)
    have hb := hs.bytes offset ho
    change (Vm.loaded _ vpn f).mainMemory (f * pageSize + offset) = _ at hb
    rw [loaded_byte] at hb
    change ((((filledWith h file 0).space.pageBytes vpn)[offset]?).getD
      (h.image file (vpn * pageSize + offset) + 1)) = _ at hb
    rw [hnone, Option.getD_none] at hb
    revert hb
    generalize h.image file (vpn * pageSize + offset) = b
    revert b
    decide
  unfold PageServed
  by_cases hlt : vpn * pageSize < h.code.size
  · exact .inl (hcode hlt)
  refine .inr ⟨by omega, ?_, ?_⟩
  · by_contra hinit
    refine hold 0 (by norm_num) ?_
    rw [AddrSpace.pageBytes, if_neg]
    · rfl
    · rintro (hc | hi)
      · exact hlt (lt_divRoundUp.mp hc)
      · exact hinit hi
  · by_contra hend
    refine hold (pageSize - 1) (by norm_num) ?_
    rw [AddrSpace.pageBytes]
    split_ifs
    · rw [readAt_getElem? _ (by norm_num)]
      refine List.getElem?_eq_none ?_
      change file.length ≤ _
      rw [hl.length]
      simp only [pageSize] at *
      omega
    · rfl

/-- A first fault on a page shows the image, whatever the frame held, if and only if the page
number and the sizes of the segments meet the condition. -/
theorem firstFault_shows_iff (hl : h.Contiguous file) {vpn : ℕ} (hv : vpn < h.numPages) :
    (∀ s, FirstFault h file vpn s → ∃ s', s.serves vpn s' ∧ Shows h file vpn s' (s'.tlb s.iter)) ↔
      PageServed h vpn := by
  constructor
  · intro hall
    refine served_of_shows hl fun b => ?_
    have hf := firstFault_filledWith file hv b
    have hframe := hasFrame_filledWith (h := h) file b
    obtain ⟨f, hserve⟩ := hf.serve_of_hasFrame hframe
    obtain ⟨s', hs', hshows⟩ := hall _ hf
    have hok := hs'.resolve_right fun hstop => hstop.1 hframe
    rw [hserve] at hok
    cases hok
    rw [loaded_slot] at hshows
    exact ⟨f, hshows⟩
  · intro hserved s hf
    obtain ⟨f, s', hserve, hmem, htlb⟩ := hf.serve
    refine ⟨s', hserve, ?_⟩
    rw [htlb, loaded_slot]
    obtain ⟨hvalid, hpage, hbytes, hwritable⟩ := served_shows hl hserved hf f
    exact ⟨hvalid, hpage, hmem ▸ hbytes, hwritable⟩

def twoPages : NoffHeader := ⟨⟨0, 40, 256⟩, ⟨0, 0, 0⟩, ⟨0, 0, 0⟩, by decide⟩

def twoPagesFile : HostFile := List.replicate 40 0 ++ List.replicate 256 7

theorem contiguous_twoPages : twoPages.Contiguous twoPagesFile where
  code _ := ⟨rfl, rfl⟩
  initData h := absurd h (by decide)
  uninitData h := absurd h (by decide)
  length := by
    rw [twoPagesFile, List.length_append, List.length_replicate, List.length_replicate]
    rfl

/-- The first fault on the second page of the code, in a memory of ones. -/
theorem secondPage_shown : PageServed twoPages 1 ∧
    ∃ s', moveraMemoria (1 : ℕ) (filledWith twoPages twoPagesFile 1) = .ok () s' ∧
      Shows twoPages twoPagesFile 1 s' (s'.tlb 0) := by
  have hserved : PageServed twoPages 1 := by
    left
    decide
  obtain ⟨s', hs', hshows⟩ := (firstFault_shows_iff contiguous_twoPages (by decide)).mpr hserved _
    (firstFault_filledWith _ (by decide) 1)
  exact ⟨hserved, s', hs'.resolve_right fun hstop => hstop.1 (hasFrame_filledWith _ 1), hshows⟩

/-- The first fault on a page of the stack leaves the byte that the frame held. -/
theorem stackPage_not_zeroed : ∃ s' e,
    FirstFault twoPages twoPagesFile 2 (filledWith twoPages twoPagesFile 1) ∧
      moveraMemoria (2 : ℕ) (filledWith twoPages twoPagesFile 1) = .ok () s' ∧ s'.tlb 0 = e ∧
      twoPages.image twoPagesFile 256 = 0 ∧
        s'.mainMemory (e.physicalPage.toNat * pageSize) = 1 := by
  have hf : FirstFault twoPages twoPagesFile 2 (filledWith twoPages twoPagesFile 1) :=
    firstFault_filledWith _ (by decide) 1
  obtain ⟨f, hserve⟩ := hf.serve_of_hasFrame (hasFrame_filledWith _ 1)
  have hnone : (filledWith twoPages twoPagesFile 1).space.pageBytes 2 = [] := by
    rw [AddrSpace.pageBytes, if_neg (by decide)]
  refine ⟨_, _, hf, hserve, loaded_slot _ 2 f, contiguous_twoPages.image_ge (by decide), ?_⟩
  have hb := loaded_byte (filledWith twoPages twoPagesFile 1) 2 f 0
  rw [hnone] at hb
  exact hb

end Nachos
