import Nachos.DemandPaging

/-! Several address spaces over one machine in the VM build: programs are started, the
current one makes memory accesses, and `Scheduler::Run` switches between them. Under `VM`
`RestoreState` does nothing, so a switch saves bits of the TLB and leaves the TLB as it is. -/
namespace Nachos

def saveStateSlot (i : Fin tlbSize) : Kernel Unit := do
  let s ← get
  updatePage (s.tlb i).virtualPage fun e =>
    { e with dirty := (s.tlb i).dirty, valid := (s.tlb i).valid }

def saveState : Kernel Unit := do
  saveStateSlot 0
  saveStateSlot 1
  saveStateSlot 2
  saveStateSlot 3

/-- One `ReadMem` or `WriteMem` of a user instruction, whether or not it faults. -/
def Access.attempt : Access → Kernel Unit
  | .load a n => do
    let _ ← vmReadMem a n
  | .store a n v => do
    let _ ← vmWriteMem a n v

def Access.writing : Access → Bool
  | .load _ _ => false
  | .store _ _ _ => true

def Access.faults (acc : Access) (s : Vm) : Prop :=
  translate (.tlb s.tlb) acc.addr acc.size acc.writing = .ok (.error .pageFault)

structure System where
  core : Core
  spaces : List AddrSpace
  current : ℕ

namespace System

def vm (s : System) : Option Vm := (s.spaces[s.current]?).map fun a => { s.core with space := a }

def put (s : System) (vm : Vm) : System :=
  { s with core := vm.toCore, spaces := s.spaces.set s.current vm.space }

def run (s : System) (k : Kernel Unit) : Option System :=
  match s.vm with
  | none => none
  | some vm =>
    match k vm with
    | .ok _ vm' => some (s.put vm')
    | .error _ _ => none

/-- `switch next`: `Scheduler::Run`, until a thread with an address space runs again. Threads
without one in between run no user code, and nothing is saved or restored for them. -/
inductive Event where
  | create (noffH : NoffHeader) (ejecutable : HostFile)
  | access (acc : Access)
  | switch (next : ℕ)

def step (s : System) : Event → Option System
  | .create noffH ejecutable =>
    some { s with spaces := s.spaces ++ [AddrSpace.new noffH ejecutable] }
  | .access acc => s.run acc.attempt
  | .switch next =>
    if next < s.spaces.length then (s.run saveState).map fun s' => { s' with current := next }
    else none

/-- No program yet, every frame free and no TLB slot valid. -/
def Init (s : System) : Prop :=
  s.spaces = [] ∧ s.current = 0 ∧ s.core.memoryMap = .empty _ ∧ s.core.iter = 0 ∧
    s.core.lastFault = -1 ∧ ∀ i, (s.core.tlb i).valid = false ∧ (s.core.tlb i).dirty = false

def Step (s s' : System) : Prop := ∃ e, s.step e = some s'

end System

def faultPageOf (addr : Word) : ℤ := addr.toInt.tdiv pageSize

/-- The TLB slots and `v` are pages of the space, and page `v` is in memory or gets a frame with an
entry in the core map. -/
def Vm.frameForPage (s : Vm) (v : ℕ) : Prop :=
  s.tlbInRange ∧ ∃ e : TranslationEntry, s.space.pageTable[v]? = some e ∧
    (e.valid = true ∨ s.hasFrame)

def Vm.frameFor (s : Vm) (addr : Word) : Prop :=
  ∃ v : ℕ, faultPageOf addr = v ∧ s.frameForPage v

variable {s s' : Vm}

theorem translate_tlb_cases {t : Tlb} {virtAddr : Word} {size : ℕ} {writing : Bool}
    {r : Except ExceptionType (ℕ × Mmu)} (h : translate (.tlb t) virtAddr size writing = .ok r) :
    (∃ e, r = .error e) ∨ ∃ pa i, t.lookup (virtAddr.toNat / pageSize : ℕ) = some i ∧
      (t i).access (virtAddr.toNat % pageSize) size writing = .ok (.ok (pa, (t i).touch writing)) ∧
      r = .ok (pa, .tlb (Function.update t i ((t i).touch writing))) := by
  unfold translate at h
  split_ifs at h with ha
  · cases h
    exact .inl ⟨_, rfl⟩
  dsimp only at h
  split at h
  · cases h
    exact .inl ⟨_, rfl⟩
  · rename_i i hi
    cases hacc : (t i).access (virtAddr.toNat % pageSize) size writing with
    | error t' => simp [hacc, bind, Except.bind] at h
    | ok r' =>
      cases r' with
      | error e =>
        simp only [hacc, bind, Except.bind] at h
        cases h
        exact .inl ⟨e, rfl⟩
      | ok p =>
        obtain ⟨pa, entry⟩ := p
        have hentry : entry = (t i).touch writing := by
          unfold TranslationEntry.access at hacc
          split_ifs at hacc <;> simp only [Except.ok.injEq, reduceCtorEq] at hacc
          split_ifs at hacc
          cases hacc
          rfl
        subst hentry
        simp only [hacc, bind, Except.bind] at h
        cases h
        exact .inr ⟨pa, i, hi, hacc, rfl⟩

theorem translateOrServe_inv {addr : Word} {size : ℕ} {writing : Bool} {r : Option ℕ}
    (h : translateOrServe addr size writing s = .ok r s') :
    (∃ pa i, r = some pa ∧ s.tlb.lookup (addr.toNat / pageSize : ℕ) = some i ∧
      (s.tlb i).access (addr.toNat % pageSize) size writing =
        .ok (.ok (pa, (s.tlb i).touch writing)) ∧
      s' = { s with tlb := Function.update s.tlb i ((s.tlb i).touch writing) }) ∨
    r = none ∧ translate (.tlb s.tlb) addr size writing = .ok (.error .pageFault) ∧
      s.lastFault ≠ faultPageOf addr ∧
      moveraMemoria (faultPageOf addr) { s with lastFault := faultPageOf addr } = .ok () s' := by
  simp only [translateOrServe, EStateM.apply_bind, EStateM.apply_get] at h
  cases htr : translate (.tlb s.tlb) addr size writing with
  | error t => simp [htr] at h
  | ok o =>
    obtain ⟨e, rfl⟩ | ⟨pa, i, hi, hacc, rfl⟩ := translate_tlb_cases htr
    · simp only [htr] at h
      obtain ⟨⟨⟩, s₁, hraise, h⟩ := EStateM.bind_eq_ok h
      cases h
      cases e <;> simp only [raiseMemoryException, EStateM.apply_throw, reduceCtorEq] at hraise
      simp only [nachosPageFault, EStateM.apply_bind, EStateM.apply_get, EStateM.apply_ite,
        EStateM.apply_throw, EStateM.apply_set] at hraise
      split_ifs at hraise with hlast
      exact .inr ⟨rfl, rfl, hlast, hraise⟩
    · simp only [htr, EStateM.apply_bind, EStateM.apply_set, EStateM.apply_pure] at h
      cases h
      exact .inl ⟨pa, i, rfl, hi, hacc, rfl⟩

theorem access_writable {entry : TranslationEntry} {offset size : ℕ} {writing : Bool}
    {r : ℕ × TranslationEntry} (h : entry.access offset size writing = .ok (.ok r))
    (hw : writing = true) : entry.readOnly = false := by
  unfold TranslationEntry.access at h
  by_cases hro : (entry.readOnly && writing) = true
  · rw [if_pos hro] at h
    cases h
  · simpa [hw] using hro

theorem attempt_cases {acc : Access} (h : acc.attempt s = .ok () s') :
    (∃ i mem, (s.tlb i).valid = true ∧ (s.tlb i).virtualPage = (acc.addr.toNat / pageSize : ℕ) ∧
      (acc.writing = true → (s.tlb i).readOnly = false) ∧
      s' = { s with
        tlb := Function.update s.tlb i ((s.tlb i).touch acc.writing)
        mainMemory := mem }) ∨
    acc.faults s ∧ s.lastFault ≠ faultPageOf acc.addr ∧
      moveraMemoria (faultPageOf acc.addr) { s with lastFault := faultPageOf acc.addr } =
        .ok () s' := by
  cases acc with
  | load addr size =>
    obtain ⟨v, s₁, hread, h⟩ := EStateM.bind_eq_ok h
    cases h
    obtain ⟨r, s₂, htr, hread⟩ := EStateM.bind_eq_ok hread
    obtain ⟨pa, i, rfl, hi, hacc, rfl⟩ | ⟨rfl, hf, hlast, hm⟩ := translateOrServe_inv htr
    · cases hv : s.mainMemory.read pa size with
      | none => simp [hv] at hread
      | some w =>
        simp only [EStateM.apply_bind, EStateM.apply_get, hv] at hread
        cases hread
        exact .inl ⟨i, _, (Tlb.lookup_eq_some hi).1, (Tlb.lookup_eq_some hi).2,
          access_writable hacc, rfl⟩
    · cases hread
      exact .inr ⟨hf, hlast, hm⟩
  | store addr size value =>
    obtain ⟨v, s₁, hwrite, h⟩ := EStateM.bind_eq_ok h
    cases h
    obtain ⟨r, s₂, htr, hwrite⟩ := EStateM.bind_eq_ok hwrite
    obtain ⟨pa, i, rfl, hi, hacc, rfl⟩ | ⟨rfl, hf, hlast, hm⟩ := translateOrServe_inv htr
    · cases hwrite
      exact .inl ⟨i, _, (Tlb.lookup_eq_some hi).1, (Tlb.lookup_eq_some hi).2,
        access_writable hacc, rfl⟩
    · cases hwrite
      exact .inr ⟨hf, hlast, hm⟩

theorem access_error {entry : TranslationEntry} {offset size : ℕ} {writing : Bool}
    {x : ExceptionType} (h : entry.access offset size writing = .ok (.error x)) :
    x = .readOnly ∨ x = .busError := by
  unfold TranslationEntry.access at h
  dsimp only at h
  split_ifs at h
  · cases h
    exact .inl rfl
  · cases h
    exact .inr rfl
  · cases h

theorem lookup_of_faults {acc : Access} (h : acc.faults s) (i : Fin tlbSize)
    (hv : (s.tlb i).valid = true) : (s.tlb i).virtualPage ≠ (acc.addr.toNat / pageSize : ℕ) := by
  cases hl : s.tlb.lookup (acc.addr.toNat / pageSize : ℕ) with
  | none => exact Tlb.lookup_eq_none.mp hl i hv
  | some k =>
    exfalso
    unfold Access.faults translate at h
    split_ifs at h
    · cases h
    · simp only [hl] at h
      cases hacc : (s.tlb k).access (acc.addr.toNat % pageSize) acc.size acc.writing with
      | error t => simp [hacc, bind, Except.bind] at h
      | ok r =>
        cases r with
        | error x =>
          simp only [hacc, bind, Except.bind] at h
          cases h
          obtain hx | hx := access_error hacc <;> cases hx
        | ok p => simp [hacc, bind, Except.bind] at h

theorem page_inv {v : ℤ} {e : TranslationEntry} (h : page v s = .ok e s') :
    ∃ n : ℕ, v = n ∧ s.space.pageTable[n]? = some e ∧ s' = s := by
  simp only [page, EStateM.apply_bind, EStateM.apply_get, EStateM.apply_ite,
    EStateM.apply_throw] at h
  split_ifs at h with hv
  obtain ⟨n, rfl⟩ := Int.eq_ofNat_of_zero_le (not_lt.mp hv)
  simp only [Int.toNat_natCast] at h
  cases he : s.space.pageTable[n]? with
  | none => simp [he] at h
  | some e' =>
    simp only [he, EStateM.apply_pure] at h
    cases h
    exact ⟨n, rfl, he, rfl⟩

theorem updatePage_inv {v : ℤ} {f : TranslationEntry → TranslationEntry}
    (h : updatePage v f s = .ok () s') :
    ∃ (n : ℕ) (e : TranslationEntry), v = n ∧ s.space.pageTable[n]? = some e ∧
      s' = { s with space := s.space.setPage n f } := by
  simp only [updatePage, EStateM.apply_bind] at h
  cases hp : page v s with
  | error t s₁ => simp [hp] at h
  | ok e s₁ =>
    simp only [hp, EStateM.apply_modify] at h
    obtain ⟨n, rfl, he, rfl⟩ := page_inv hp
    cases h
    exact ⟨n, e, rfl, he, rfl⟩

def saveSlot (slot : TranslationEntry) (v : ℕ) (e : TranslationEntry) : TranslationEntry :=
  if slot.virtualPage = v then { e with dirty := slot.dirty, valid := slot.valid } else e

def saveEntry (tlb : Tlb) (v : ℕ) (e : TranslationEntry) : TranslationEntry :=
  saveSlot (tlb 3) v (saveSlot (tlb 2) v (saveSlot (tlb 1) v (saveSlot (tlb 0) v e)))

/-- The last slot that names page `v`, the one that `SaveState` takes the bits of the page from,
is valid. -/
def Tlb.savesValid (t : Tlb) (v : ℕ) : Prop :=
  ∀ k, (t k).virtualPage = v → (∀ l, k < l → (t l).virtualPage ≠ v) → (t k).valid = true

instance (t : Tlb) (v : ℕ) : Decidable (t.savesValid v) := inferInstanceAs (Decidable (∀ _, _))

theorem savesValid_iff_of_last {t : Tlb} {v : ℕ} {k : Fin tlbSize} (hk : (t k).virtualPage = v)
    (hlast : ∀ l, k < l → (t l).virtualPage ≠ v) : t.savesValid v ↔ (t k).valid = true := by
  refine ⟨fun h => h k hk hlast, fun hv j hj hjl => ?_⟩
  have hjk : j = k := by
    rcases lt_trichotomy j k with hlt | heq | hgt
    · exact absurd hk (hjl k hlt)
    · exact heq
    · exact absurd hj (hlast j hgt)
  rw [hjk, hv]

/-- `SaveState` takes the bits of a page from the last slot that names it. -/
theorem saveEntry_cases (t : Tlb) (v : ℕ) (e : TranslationEntry) :
    ((∀ k, (t k).virtualPage ≠ v) ∧ saveEntry t v e = e) ∨
      ∃ k, (t k).virtualPage = v ∧ (∀ l, k < l → (t l).virtualPage ≠ v) ∧
        saveEntry t v e = { e with dirty := (t k).dirty, valid := (t k).valid } := by
  simp only [saveEntry]
  by_cases h3 : (t 3).virtualPage = v
  · refine .inr ⟨3, h3, fun l hl => ?_, ?_⟩
    · fin_cases l <;> exact absurd hl (by decide)
    · simp only [saveSlot, h3, if_true]
      split_ifs <;> rfl
  rw [saveSlot, if_neg h3]
  by_cases h2 : (t 2).virtualPage = v
  · refine .inr ⟨2, h2, fun l hl => ?_, ?_⟩
    · fin_cases l <;> first | exact h3 | exact absurd hl (by decide)
    · simp only [saveSlot, h2, if_true]
      split_ifs <;> rfl
  rw [saveSlot, if_neg h2]
  by_cases h1 : (t 1).virtualPage = v
  · refine .inr ⟨1, h1, fun l hl => ?_, ?_⟩
    · fin_cases l <;> first | exact h3 | exact h2 | exact absurd hl (by decide)
    · simp only [saveSlot, h1, if_true]
      split_ifs <;> rfl
  rw [saveSlot, if_neg h1]
  by_cases h0 : (t 0).virtualPage = v
  · refine .inr ⟨0, h0, fun l hl => ?_, by rw [saveSlot, if_pos h0]⟩
    fin_cases l <;> first | exact h3 | exact h2 | exact h1 | exact absurd hl (by decide)
  refine .inl ⟨fun k => ?_, by rw [saveSlot, if_neg h0]⟩
  fin_cases k <;> assumption

theorem saveEntry_valid_iff {t : Tlb} {v : ℕ} {e : TranslationEntry} (hv : e.valid = true) :
    (saveEntry t v e).valid = true ↔ t.savesValid v := by
  obtain ⟨hnone, he⟩ | ⟨k, hk, hlast, he⟩ := saveEntry_cases t v e
  · rw [he]
    exact ⟨fun _ k hk => absurd hk (hnone k), fun _ => hv⟩
  · rw [he]
    exact (savesValid_iff_of_last hk hlast).symm

theorem saveEntry_physicalPage (t : Tlb) (v : ℕ) (e : TranslationEntry) :
    (saveEntry t v e).physicalPage = e.physicalPage := by
  unfold saveEntry saveSlot
  split_ifs <;> rfl

theorem saveStateSlot_inv {i : Fin tlbSize} (h : saveStateSlot i s = .ok () s') :
    (0 ≤ (s.tlb i).virtualPage ∧ (s.tlb i).virtualPage < s.space.pageTable.length) ∧
      s' = s.withPages (s.space.pageTable.mapIdx (saveSlot (s.tlb i))) := by
  simp only [saveStateSlot, EStateM.apply_bind, EStateM.apply_get] at h
  obtain ⟨n, e, hn, he, rfl⟩ := updatePage_inv h
  have hlt := (List.getElem?_eq_some_iff.mp he).1
  refine ⟨⟨by omega, by omega⟩, ?_⟩
  simp only [AddrSpace.setPage, Int.toNat_natCast, modify_eq_mapIdx, Vm.withPages]
  congr 3
  funext v e'
  simp [saveSlot, hn]

theorem saveState_inv (h : saveState s = .ok () s') :
    s.tlbInRange ∧ s' = s.withPages (s.space.pageTable.mapIdx (saveEntry s.tlb)) := by
  obtain ⟨⟨⟩, s₀, h₀, h⟩ := EStateM.bind_eq_ok h
  obtain ⟨⟨⟩, s₁, h₁, h⟩ := EStateM.bind_eq_ok h
  obtain ⟨⟨⟩, s₂, h₂, h₃⟩ := EStateM.bind_eq_ok h
  obtain ⟨r₀, rfl⟩ := saveStateSlot_inv h₀
  obtain ⟨r₁, rfl⟩ := saveStateSlot_inv h₁
  obtain ⟨r₂, rfl⟩ := saveStateSlot_inv h₂
  obtain ⟨r₃, rfl⟩ := saveStateSlot_inv h₃
  simp only [Vm.withPages, List.length_mapIdx] at r₁ r₂ r₃
  refine ⟨fun i => ?_, ?_⟩
  · fin_cases i
    · exact r₀
    · exact r₁
    · exact r₂
    · exact r₃
  · simp only [Vm.withPages, List.mapIdx_mapIdx]
    rfl

theorem syncTlbSlot_inv {i : Fin tlbSize} (h : syncTlbSlot i s = .ok () s') :
    0 ≤ (s.tlb i).virtualPage ∧ (s.tlb i).virtualPage < s.space.pageTable.length ∧
      ∃ pages, pages.length = s.space.pageTable.length ∧ s' = s.withPages pages := by
  simp only [syncTlbSlot, EStateM.apply_bind, EStateM.apply_get] at h
  obtain ⟨n, e, hn, he, rfl⟩ := updatePage_inv h
  have hlt := (List.getElem?_eq_some_iff.mp he).1
  refine ⟨by omega, by omega, (s.space.setPage n _).pageTable, ?_, rfl⟩
  simp [AddrSpace.setPage]

theorem syncTlb_inv (h : syncTlb s = .ok () s') : s.tlbInRange := by
  obtain ⟨⟨⟩, s₀, h₀, h⟩ := EStateM.bind_eq_ok h
  obtain ⟨⟨⟩, s₁, h₁, h⟩ := EStateM.bind_eq_ok h
  obtain ⟨⟨⟩, s₂, h₂, h₃⟩ := EStateM.bind_eq_ok h
  obtain ⟨l₀, u₀, p₀, hp₀, rfl⟩ := syncTlbSlot_inv h₀
  obtain ⟨l₁, u₁, p₁, hp₁, rfl⟩ := syncTlbSlot_inv h₁
  obtain ⟨l₂, u₂, p₂, hp₂, rfl⟩ := syncTlbSlot_inv h₂
  obtain ⟨l₃, u₃, -⟩ := syncTlbSlot_inv h₃
  simp only [Vm.withPages] at *
  intro i
  fin_cases i
  · exact ⟨l₀, u₀⟩
  · exact ⟨l₁, by rwa [hp₀] at u₁⟩
  · exact ⟨l₂, by rwa [hp₁, hp₀] at u₂⟩
  · exact ⟨l₃, by rwa [hp₂, hp₁, hp₀] at u₃⟩

theorem moveraMemoria_page {vpn : ℤ} (h : moveraMemoria vpn s = .ok () s') :
    s.tlbInRange ∧ ∃ (n : ℕ) (e : TranslationEntry), vpn = n ∧ s.space.pageTable[n]? = some e := by
  obtain ⟨⟨⟩, s₀, h₀, h⟩ := EStateM.bind_eq_ok h
  have hr := syncTlb_inv h₀
  rw [syncTlb_ok hr] at h₀
  cases h₀
  obtain ⟨s₁, s₂, hget, h⟩ := EStateM.bind_eq_ok h
  cases hget
  split_ifs at h
  · cases h
  obtain ⟨entry, s₃, hp, -⟩ := EStateM.bind_eq_ok h
  obtain ⟨n, rfl, he, -⟩ := page_inv hp
  rw [synced_getElem?, Option.map_eq_some_iff] at he
  obtain ⟨e, he, -⟩ := he
  exact ⟨hr, n, e, rfl, he⟩

theorem moveraMemoria_made {vpn : ℤ} (h : moveraMemoria vpn s = .ok () s') :
    s.space.copied = false := by
  by_contra hc
  obtain ⟨s'', herr⟩ := moveraMemoria_copied (moveraMemoria_page h).1 (by simpa using hc)
  rw [herr] at h
  cases h

def SameEntries (s s' : Vm) : Prop := s'.space.iptEntries = s.space.iptEntries

theorem putFrame_entries {frame : ℤ} {bytes : List Byte}
    (h : putFrame frame bytes s = .ok () s') : SameEntries s s' := by
  simp only [putFrame, EStateM.apply_bind, EStateM.apply_ite, EStateM.apply_throw,
    EStateM.apply_modify] at h
  split_ifs at h
  cases h
  rfl

theorem updatePage_entries {v : ℤ} {f : TranslationEntry → TranslationEntry}
    (h : updatePage v f s = .ok () s') : SameEntries s s' := by
  obtain ⟨n, e, rfl, -, rfl⟩ := updatePage_inv h
  rfl

theorem refillTlb_entries {v : ℤ} (h : refillTlb v s = .ok () s') : SameEntries s s' := by
  obtain ⟨_, _, hget, h⟩ := EStateM.bind_eq_ok h
  cases hget
  obtain ⟨⟨⟩, s₁, hcopy, h⟩ := EStateM.bind_eq_ok h
  obtain ⟨e, s₂, hp, hcopy⟩ := EStateM.bind_eq_ok hcopy
  obtain ⟨-, -, -, rfl⟩ := page_inv hp
  cases hcopy
  cases h
  rfl

theorem readExecutable_entries {v : ℤ} (h : readExecutable v s = .ok () s') :
    SameEntries s s' := by
  obtain ⟨e, s₀, hp, h⟩ := EStateM.bind_eq_ok h
  obtain ⟨-, -, -, hs⟩ := page_inv hp
  rw [hs, EStateM.apply_bind, EStateM.apply_get] at h
  exact putFrame_entries h

theorem liftTrap_state {α : Type} {x : Except Trap α} {a : α} (h : liftTrap x s = .ok a s') :
    s' = s := by
  cases x with
  | ok b =>
    cases h
    rfl
  | error t => cases h

theorem readSwap_entries {v campo : ℤ} (h : readSwap v campo s = .ok () s') :
    SameEntries s s' := by
  obtain ⟨e, s₀, hp, h⟩ := EStateM.bind_eq_ok h
  obtain ⟨-, -, -, hs⟩ := page_inv hp
  rw [hs, EStateM.apply_bind, EStateM.apply_get] at h
  simp only [EStateM.apply_ite] at h
  split_ifs at h
  · cases h
  · obtain ⟨⟨⟩, s₁, h₁, h⟩ := EStateM.bind_eq_ok h
    obtain ⟨map, s₂, h₂, h⟩ := EStateM.bind_eq_ok h
    rw [liftTrap_state h₂] at h
    cases h
    have h₁' := putFrame_entries h₁
    exact h₁'

theorem setIpt_frame {frame v : ℤ} (h : setIpt frame v s = .ok () s') :
    0 ≤ frame ∧ frame < s.space.iptEntries := by
  by_cases hentry : (s.space.iptEntries : ℤ) ≤ frame
  · simp [setIpt, hentry] at h
  by_cases hframe : 0 ≤ frame ∧ frame < numPhysPages
  · exact ⟨hframe.1, not_le.mp hentry⟩
  · simp only [setIpt, EStateM.apply_bind, EStateM.apply_get, if_neg hentry,
      dif_neg hframe] at h
    cases h

/-- With one entry in the core map a victim is never found. -/
theorem findFrame_single {writeBack : Bool} {f : ℤ} (hone : s.space.iptEntries = 1)
    (h : findFrame writeBack s = .ok f s') : f = s.memoryMap.find.1 ∧ SameEntries s s' := by
  have hvictim := buscarVictima_error (s := { s with memoryMap := s.memoryMap.find.2 }) hone.le
  simp only [findFrame, EStateM.apply_bind, EStateM.apply_get, EStateM.apply_modify,
    EStateM.apply_ite, hvictim, EStateM.apply_pure] at h
  split_ifs at h
  cases h
  exact ⟨rfl, rfl⟩

theorem moveraMemoria_hasFrame {vpn : ℕ} {e : TranslationEntry} (hone : s.space.iptEntries = 1)
    (h : moveraMemoria vpn s = .ok () s') (he : s.space.pageTable[vpn]? = some e)
    (hv : e.valid = false) : s.hasFrame := by
  have hr := (moveraMemoria_page h).1
  have he' : (s.space.synced s.tlb).pageTable[vpn]? = some (syncEntry s.tlb vpn e) := by
    rw [synced_getElem?, he, Option.map_some]
  have hv' := (syncEntry_valid s.tlb vpn e).1.trans hv
  have hserved : ∀ {writeBack dirty readOnly : Bool} {f : ℤ} {s₁ s₂ s₃ s₄ s₅ : Vm},
      findFrame writeBack { s with space := s.space.synced s.tlb } = .ok f s₁ →
      installPage vpn f dirty readOnly s₁ = .ok () s₂ → refillTlb vpn s₂ = .ok () s₃ →
      SameEntries s₃ s₄ → setIpt f vpn s₄ = .ok () s₅ → s.hasFrame := by
    intro writeBack dirty readOnly f s₁ s₂ s₃ s₄ s₅ h₁ h₂ h₃ h₄ h₅
    obtain ⟨hf, e₁⟩ := findFrame_single (s := { s with space := s.space.synced s.tlb }) hone h₁
    have hentries : s₄.space.iptEntries = s.space.iptEntries :=
      h₄.trans ((refillTlb_entries h₃).trans ((updatePage_entries h₂).trans e₁))
    obtain ⟨h0, hlt⟩ := setIpt_frame h₅
    rw [hentries] at hlt
    rw [hf] at h0 hlt
    exact ⟨h0, hlt⟩
  obtain ⟨⟨⟩, _, h₀, h⟩ := EStateM.bind_eq_ok h
  rw [syncTlb_ok hr] at h₀
  cases h₀
  obtain ⟨_, _, hget, h⟩ := EStateM.bind_eq_ok h
  cases hget
  split_ifs at h
  · cases h
  obtain ⟨entry, _, hpage, h⟩ := EStateM.bind_eq_ok h
  rw [page_ok he'] at hpage
  cases hpage
  simp only [hv', Bool.not_false, Bool.true_and, if_true, Bool.false_eq_true, if_false,
    EStateM.apply_ite] at h
  split_ifs at h
  all_goals
    obtain ⟨f, s₁, h₁, h⟩ := EStateM.bind_eq_ok h
    obtain ⟨⟨⟩, s₂, h₂, h⟩ := EStateM.bind_eq_ok h
    obtain ⟨⟨⟩, s₃, h₃, h⟩ := EStateM.bind_eq_ok h
  · obtain ⟨⟨⟩, s₄, h₄, h⟩ := EStateM.bind_eq_ok h
    exact hserved h₁ h₂ h₃ (readExecutable_entries h₄) h
  · obtain ⟨⟨⟩, s₄, h₄, h⟩ := EStateM.bind_eq_ok h
    exact hserved h₁ h₂ h₃ (readExecutable_entries h₄) h
  · obtain ⟨⟨⟩, s₄, h₄, h⟩ := EStateM.bind_eq_ok h
    exact hserved h₁ h₂ h₃ (readSwap_entries h₄) h
  · exact hserved h₁ h₂ h₃ rfl h
  · obtain ⟨⟨⟩, s₄, h₄, h⟩ := EStateM.bind_eq_ok h
    exact hserved h₁ h₂ h₃ (readSwap_entries h₄) h

theorem moveraMemoria_frameFor {addr : Word} (hone : s.space.iptEntries = 1)
    (h : moveraMemoria (faultPageOf addr) s = .ok () s') : s.frameFor addr := by
  obtain ⟨hr, n, e, hn, he⟩ := moveraMemoria_page h
  refine ⟨n, hn, hr, e, he, ?_⟩
  cases hv : e.valid with
  | true => exact .inl rfl
  | false =>
    rw [hn] at h
    exact .inr (moveraMemoria_hasFrame hone h he hv)

namespace System

variable {s s' : System} {vm vm' : Vm}

def entry (s : System) (j v : ℕ) : Option TranslationEntry :=
  (s.spaces[j]?).bind fun a => a.pageTable[v]?

theorem run_inv {k : Kernel Unit} (h : s.run k = some s') :
    ∃ vm vm', s.vm = some vm ∧ k vm = .ok () vm' ∧ s' = s.put vm' := by
  unfold run at h
  cases hvm : s.vm with
  | none => simp [hvm] at h
  | some vm =>
    simp only [hvm] at h
    cases hk : k vm with
    | error t vm' => simp [hk] at h
    | ok u vm' =>
      simp only [hk, Option.some.injEq] at h
      exact ⟨vm, vm', rfl, hk, h.symm⟩

theorem vm_inv (h : s.vm = some vm) :
    s.spaces[s.current]? = some vm.space ∧ s.core = vm.toCore := by
  unfold System.vm at h
  rw [Option.map_eq_some_iff] at h
  obtain ⟨a, ha, rfl⟩ := h
  exact ⟨ha, rfl⟩

theorem vm_lastFault (h : s.vm = some vm) (p : ℤ) :
    System.vm { s with core := { s.core with lastFault := p } } =
      some { vm with lastFault := p } := by
  obtain ⟨hs, hcore⟩ := vm_inv h
  rw [System.vm, hs, Option.map_some, hcore]

theorem entry_current (h : s.vm = some vm) (v : ℕ) :
    s.entry s.current v = vm.space.pageTable[v]? := by
  rw [entry, (vm_inv h).1]
  rfl

theorem spaces_put (h : s.vm = some vm) (vm' : Vm) (j : ℕ) :
    (s.put vm').spaces[j]? = if j = s.current then some vm'.space else s.spaces[j]? := by
  have hlt := (List.getElem?_eq_some_iff.mp (vm_inv h).1).1
  unfold put
  split_ifs with hj
  · rw [hj]
    exact List.getElem?_set_self hlt
  · exact List.getElem?_set_ne (Ne.symm hj)

theorem entry_put (h : s.vm = some vm) (vm' : Vm) (j v : ℕ) :
    (s.put vm').entry j v = if j = s.current then vm'.space.pageTable[v]? else s.entry j v := by
  rw [entry, spaces_put h]
  split_ifs <;> rfl

theorem entry_create (s : System) (noffH : NoffHeader) (ejecutable : HostFile) (j v : ℕ) :
    ({ s with spaces := s.spaces ++ [AddrSpace.new noffH ejecutable] } : System).entry j v =
      if j = s.spaces.length then (AddrSpace.new noffH ejecutable).pageTable[v]?
      else s.entry j v := by
  unfold entry
  dsimp only
  split_ifs with hj
  · rw [hj, List.getElem?_concat_length]
    rfl
  · rcases Nat.lt_or_gt_of_ne hj with hlt | hgt
    · rw [List.getElem?_append_left hlt]
    · rw [List.getElem?_eq_none (by simp; omega), List.getElem?_eq_none (by omega)]

theorem switch_inRange {next : ℕ} (h : s.step (.switch next) = some s') (hvm : s.vm = some vm) :
    vm.tlbInRange := by
  simp only [step] at h
  split_ifs at h
  obtain ⟨s₁, hrun, -⟩ := Option.map_eq_some_iff.mp h
  obtain ⟨vm₀, vm', hvm₀, hsave, -⟩ := run_inv hrun
  obtain rfl := Option.some.inj (hvm.symm.trans hvm₀)
  exact (saveState_inv hsave).1

theorem switch_inv {next : ℕ} (h : s.step (.switch next) = some s') :
    ∃ vm, s.vm = some vm ∧ s'.core = s.core ∧ s'.current = next ∧
      (∀ (j : ℕ) (a' : AddrSpace), s'.spaces[j]? = some a' → ∃ a : AddrSpace,
        s.spaces[j]? = some a ∧ a'.iptEntries = a.iptEntries ∧ a'.copied = a.copied) ∧
      ∀ j v, s'.entry j v =
        if j = s.current then (s.entry j v).map (saveEntry s.core.tlb v) else s.entry j v := by
  simp only [step] at h
  split_ifs at h with hlt
  obtain ⟨s₁, hrun, rfl⟩ := Option.map_eq_some_iff.mp h
  obtain ⟨vm, vm', hvm, hsave, rfl⟩ := run_inv hrun
  obtain ⟨-, rfl⟩ := saveState_inv hsave
  obtain ⟨hsp, hcore⟩ := vm_inv hvm
  refine ⟨vm, hvm, hcore.symm, rfl, fun j a' ha' => ?_, fun j v => ?_⟩
  · have ha := (spaces_put hvm (vm.withPages (vm.space.pageTable.mapIdx (saveEntry vm.tlb)))
      j).symm.trans ha'
    split_ifs at ha with hj
    · obtain rfl := Option.some.inj ha
      exact ⟨vm.space, by rw [hj, hsp], rfl, rfl⟩
    · exact ⟨a', ha, rfl, rfl⟩
  · refine (entry_put hvm
      (vm.withPages (vm.space.pageTable.mapIdx (saveEntry vm.tlb))) j v).trans ?_
    split_ifs with hj
    · rw [hj, entry_current hvm, hcore]
      simp [Vm.withPages]
    · rfl

/-- Two programs of 40 pages, on a machine whose TLB slots name a page that is not used. -/
def bootSystem : System where
  core := { bootVm.toCore with tlb := fun _ => ⟨39, 0, false, false, false, false⟩ }
  spaces := []
  current := 0

theorem init_bootSystem : bootSystem.Init :=
  ⟨rfl, rfl, rfl, rfl, rfl, fun _ => ⟨rfl, rfl⟩⟩

def loadPages (vs : List ℕ) : List Event := vs.map fun v => .access (.load (pageAddr v) 1)

theorem reachable_step {evs : List Event} (h : evs.foldlM step bootSystem = some s) :
    Reachable Init Step s :=
  Reachable.of_foldlM (fun s ev s' (h : s.step ev = some s') => ⟨ev, h⟩)
    (.init init_bootSystem) h

end System

end Nachos
