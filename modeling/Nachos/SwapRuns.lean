import Nachos.SwapSlots

/-! Runs of one address space: loads and stores that hit the TLB, and page faults
(`exception.cc`, `addrspace.cc`). Over every run the marked slots of the swap file are those of
the absent dirty pages, and a page comes back from the slot it went to. -/
namespace Nachos

section By

variable (read : ℤ → Kernel (List Byte))

/-- `Nachos_PageFault` on page `n`, with `read` in place of `memoryBytes`. -/
def faultBy (n : ℤ) : Kernel Unit := do
  let s ← get
  if s.lastFault = n then throw .assertion
  set { s with lastFault := n }
  moveraMemoriaBy read n

theorem faultBy_memoryBytes (addr : Word) :
    faultBy memoryBytes (faultPageOf addr) = nachosPageFault addr := rfl

def Vm.misses (s : Vm) (n : ℕ) : Prop :=
  ∀ i, (s.tlb i).valid = true → (s.tlb i).virtualPage ≠ n

/-- The machine and the kernel when the program starts, with a core map for all the frames. -/
structure PagingStart (s : Vm) : Prop where
  space : ∃ noffH ejecutable,
    s.space = { AddrSpace.new noffH ejecutable with iptEntries := numPhysPages }
  range : s.tlbInRange
  tlb : ∀ i, (s.tlb i).valid = false ∧ (s.tlb i).dirty = false
  iter : s.iter = 0
  lastFault : s.lastFault = -1
  memoryMap : s.memoryMap = .empty _
  swapMap : s.swapMap = .empty _

inductive PagingStep (s s' : Vm) : Prop
  /-- A load or store that finds its page in the TLB. -/
  | hit (acc : Access) (found : ¬acc.faults s) (runs : acc.attempt s = .ok () s')
  | fault (n : ℕ) (inSpace : n < s.space.pageTable.length) (miss : s.misses n)
      (runs : faultBy read n s = .ok () s')

end By

/-- The fault is served for the page of the address. This fails for the last 127 addresses,
whose quotient as an `int` is 0. -/
def Access.servedPage (acc : Access) (s : Vm) : Prop :=
  acc.faults s → faultPageOf acc.addr = (acc.addr.toNat / pageSize : ℕ)

variable {s s' : Vm} {read : ℤ → Kernel (List Byte)}

theorem faultBy_inv {n : ℤ} (h : faultBy read n s = .ok () s') :
    s.lastFault ≠ n ∧ moveraMemoriaBy read n { s with lastFault := n } = .ok () s' := by
  simp only [faultBy, EStateM.apply_bind, EStateM.apply_get, EStateM.apply_ite,
    EStateM.apply_throw, EStateM.apply_set] at h
  split_ifs at h with hlast
  exact ⟨hlast, h⟩

theorem pagingStep_attempt {acc : Access} (hp : acc.servedPage s)
    (h : acc.attempt s = .ok () s') : PagingStep memoryBytes s s' := by
  by_cases hf : acc.faults s
  · obtain ⟨i, -, hv, hvp, -⟩ | ⟨-, hlast, hm⟩ := attempt_cases h
    · exact absurd hvp (lookup_of_faults hf i hv)
    · obtain ⟨-, n, e, hn, he⟩ := moveraMemoria_page hm
      have hpage : n = acc.addr.toNat / pageSize := by exact_mod_cast hn.symm.trans (hp hf)
      rw [hn] at hlast hm
      refine .fault n (List.getElem?_eq_some_iff.mp he).1 (fun i hv => ?_) ?_
      · rw [hpage]
        exact lookup_of_faults hf i hv
      · simp only [faultBy, EStateM.apply_bind, EStateM.apply_get, EStateM.apply_ite,
          if_neg hlast, EStateM.apply_set]
        exact hm
  · exact .hit acc hf h

theorem paging_start (h : PagingStart s) : Paging s := by
  obtain ⟨noffH, ejecutable, hspace⟩ := h.space
  have hbits : ∀ v e, s.bits v = some e → e = ⟨v, -1, false, false, false, false⟩ := by
    intro v e he
    obtain ⟨e₀, he₀, rfl⟩ := bits_eq_some.mp he
    rw [hspace, AddrSpace.new] at he₀
    simp only [List.getElem?_map, Option.map_eq_some_iff] at he₀
    obtain ⟨i, hi, rfl⟩ := he₀
    obtain ⟨-, rfl⟩ := List.getElem?_eq_some_iff.mp hi
    simp [TranslationEntry.unused]
  have hout : ∀ v c, ¬s.inSlot v c := by
    rintro v c ⟨e, he, -, hd, -⟩
    rw [hbits v e he] at hd
    cases hd
  have hno : ∀ i, ¬(s.tlb i).valid = true := fun i => by simp [(h.tlb i).1]
  constructor
  case toMapped =>
    rw [hspace]
    exact ⟨rfl, rfl⟩
  case range => exact h.range
  case self =>
    intro v e he
    rw [hbits v e he]
  case frame =>
    intro v e he hv
    rw [hbits v e he] at hv
    cases hv
  case hit => exact fun i hi => absurd hi (hno i)
  case apart => exact fun i j hi => absurd hi (hno i)
  case core =>
    intro f hf
    rw [h.memoryMap, BitMap.bit_empty] at hf
    cases hf
  case code =>
    intro v e he _
    rw [hbits v e he]
    refine ⟨rfl, fun hd => ?_⟩
    cases hd
  case codeSlot => exact fun i _ => ⟨(h.tlb i).2, fun hi => absurd hi (hno i)⟩
  case filling =>
    refine Or.inr ⟨fun i => ?_, fun f _ hf => ?_⟩
    · rw [h.iter]
      exact ⟨fun hi => absurd hi (hno i), fun hi => absurd hi (Nat.not_lt_zero _)⟩
    · rw [h.memoryMap, BitMap.bit_empty] at hf
      cases hf
  case unused => exact fun _ => hout
  case miss => exact fun i _ => (h.tlb i).2
  case slot =>
    intro v e he _ hd
    rw [hbits v e he] at hd
    cases hd
  case once => exact fun v v' c hv => absurd hv (hout v c)
  case marks =>
    intro c _
    rw [h.swapMap, BitMap.bit_empty]
    constructor
    · intro hbit
      cases hbit
    · rintro ⟨v, hv⟩
      exact absurd hv (hout v c)

theorem Paging.touch (hp : Paging s) {i : Fin tlbSize} {writing : Bool} (mem : Memory)
    (hv : (s.tlb i).valid = true) (hw : writing = true → (s.tlb i).readOnly = false) :
    Paging { s with
      tlb := Function.update s.tlb i ((s.tlb i).touch writing)
      mainMemory := mem } := by
  have hslot := update_cases s.tlb i ((s.tlb i).touch writing)
  have hsame : ∀ k, (Function.update s.tlb i ((s.tlb i).touch writing) k).valid =
      (s.tlb k).valid ∧ (Function.update s.tlb i ((s.tlb i).touch writing) k).virtualPage =
      (s.tlb k).virtualPage ∧
      (Function.update s.tlb i ((s.tlb i).touch writing) k).physicalPage =
      (s.tlb k).physicalPage := by
    intro k
    obtain ⟨rfl, h⟩ | ⟨-, h⟩ := hslot k <;> rw [h]
    · exact ⟨rfl, rfl, rfl⟩
    · exact ⟨rfl, rfl, rfl⟩
  constructor
  case toMapped => exact hp.toMapped
  case range =>
    intro k
    dsimp only
    rw [(hsame k).2.1]
    exact hp.range k
  case self => exact hp.self
  case frame => exact hp.frame
  case hit =>
    intro k hk
    dsimp only at hk ⊢
    rw [(hsame k).1] at hk
    rw [(hsame k).2.1, (hsame k).2.2]
    exact hp.hit k hk
  case apart =>
    intro k l hk hl hkl
    dsimp only at hk hl hkl
    rw [(hsame k).1] at hk
    rw [(hsame l).1] at hl
    rw [(hsame k).2.1, (hsame l).2.1] at hkl
    exact hp.apart k l hk hl hkl
  case core => exact hp.core
  case code => exact hp.code
  case codeSlot =>
    intro k hk
    dsimp only at hk ⊢
    obtain ⟨rfl, h⟩ | ⟨-, h⟩ := hslot k <;> rw [h] at hk ⊢
    · obtain ⟨hd, hro⟩ := hp.codeSlot k hk
      refine ⟨?_, hro⟩
      have hw' : writing = false := by
        by_contra hne
        rw [hro hv] at hw
        exact absurd (hw (by simpa using hne)) (by simp)
      rw [TranslationEntry.touch, hw', hd]
      rfl
    · exact hp.codeSlot k hk
  case filling =>
    obtain h | ⟨h, hm⟩ := hp.filling
    · exact Or.inl fun k => (hsame k).1.trans (h k)
    · refine Or.inr ⟨fun k => ?_, hm⟩
      dsimp only
      rw [(hsame k).1]
      exact h k
  case unused =>
    intro hno
    refine hp.unused fun hall => hno fun k => ?_
    exact (hsame k).1.trans (hall k)
  case miss =>
    intro k hk
    dsimp only at hk ⊢
    obtain ⟨rfl, h⟩ | ⟨-, h⟩ := hslot k <;> rw [h] at hk ⊢
    · rw [TranslationEntry.touch, hv] at hk
      cases hk
    · exact hp.miss k hk
  case slot => exact hp.slot
  case once => exact hp.once
  case marks => exact hp.marks

theorem Paging.withLastFault (hp : Paging s) (n : ℤ) : Paging { s with lastFault := n } :=
  ⟨hp.toMapped, hp.range, hp.self, hp.frame, hp.hit, hp.apart, hp.core, hp.code, hp.codeSlot,
    hp.filling, hp.unused, hp.miss, hp.slot, hp.once, hp.marks⟩

theorem moveraMemoriaBy_valid {n : ℕ} {e : TranslationEntry} (hr : s.tlbInRange)
    (hc : s.space.copied = false) (he : s.space.pageTable[n]? = some e) (hv : e.valid = true) :
    moveraMemoriaBy read n s = .ok () (s.refilled (syncEntry s.tlb n e)) := by
  have he' : (s.space.synced s.tlb).pageTable[n]? = some (syncEntry s.tlb n e) := by
    rw [synced_getElem?, he, Option.map_some]
  have hv' : (syncEntry s.tlb n e).valid = true := by rw [(syncEntry_valid _ _ _).1, hv]
  have hc' : (s.space.synced s.tlb).copied = false := hc
  simp only [moveraMemoriaBy, EStateM.apply_bind, syncTlb_ok hr, EStateM.apply_get, hc',
    page_ok (s := { s with space := s.space.synced s.tlb }) he', EStateM.apply_ite, hv',
    refillTlb_ok (s := { s with space := s.space.synced s.tlb }) he', Bool.not_true,
    Bool.false_and, Bool.false_eq_true, if_false, if_true, ite_self]
  rfl

def Vm.present (s : Vm) (v : ℕ) : Bool := (s.space.pageTable[v]?).any (·.valid)

theorem present_of_bits {v : ℕ} {e : TranslationEntry} (h : s.bits v = some e) :
    s.present v = e.valid := by
  obtain ⟨e₀, he₀, rfl⟩ := bits_eq_some.mp h
  rw [Vm.present, he₀]
  rfl

theorem Paging.found_inSlot (hp : Paging s) {f : ℤ} {writeBack : Bool}
    (h : FrameFound s writeBack f s') {v c : ℕ} (hin : s'.inSlot v c) :
    s.inSlot v c ∨ s.present v = true ∧ s.swapMap.find.1 = (c : ℕ) := by
  cases h with
  | free lt clear below same bits memoryMap swapMap => exact Or.inl ((inSlot_congr bits).mp hin)
  | stolen full core victim same bits memoryMap swapMap =>
    exact Or.inl ((inSlot_congr bits).mp hin)
  | @swapped k v' w c' g e e' _ back full core victim same slot out dirty frame lt range find clear
      bits memoryMap swapMap =>
    obtain ⟨v₀, e₀, he₀, hv₀, hvp, -⟩ := hp.hit s.iter (hp.filling.full_tlb full _)
    obtain rfl : w = v₀ := by exact_mod_cast slot.symm.trans hvp
    rw [out] at he₀
    obtain rfl := Option.some.inj he₀
    obtain ⟨rfl, rfl⟩ | hin := (inSlot_swapped out hv₀ dirty bits).mp hin
    · exact Or.inr ⟨(present_of_bits out).trans hv₀, find⟩
    · exact Or.inl hin

structure SlotsKept (s s' : Vm) : Prop where
  paging : Paging s'
  taken : ∀ v c, s'.inSlot v c →
    s.inSlot v c ∨ s.present v = true ∧ s.swapMap.find.1 = (c : ℕ)

theorem Paging.moveraMemoria (hp : Paging s) (hread : ReadsOnly read) {n : ℕ}
    (hn : n < s.space.pageTable.length) (hmiss : s.misses n)
    (h : moveraMemoriaBy read n s = .ok () s') : SlotsKept s s' := by
  obtain ⟨e, he⟩ := exists_page hn
  cases hv : e.valid with
  | true =>
    rw [moveraMemoriaBy_valid hp.range hp.made he hv] at h
    cases h
    have he' : (s.space.synced s.tlb).pageTable[n]? = some (syncEntry s.tlb n e) := by
      rw [synced_getElem?, he, Option.map_some]
    refine ⟨hp.sync.refill he' ((syncEntry_valid _ _ _).1.trans hv) hmiss, fun v c hin => ?_⟩
    exact Or.inl (hp.synced_inSlot.mp hin)
  | false =>
    obtain ⟨s₁, f, d, hl⟩ := loads_moveraMemoria hread hp.range he hv h
    refine ⟨hp.loads he hv hl, fun v c hin => ?_⟩
    obtain ⟨e', he', hv', hrest⟩ := hin
    rw [hl.bits] at he'
    by_cases hvn : v = n
    · rw [if_pos hvn] at he'
      rw [← Option.some.inj he'] at hv'
      cases hv'
    · rw [if_neg hvn] at he'
      obtain hin | ⟨hpres, hfind⟩ := hp.sync.found_inSlot hl.found ⟨e', he', hv', hrest⟩
      · exact Or.inl (hp.synced_inSlot.mp hin)
      · refine Or.inr ⟨?_, hfind⟩
        have hmap := synced_map s.space s.tlb v
        simp only [Vm.present] at hpres ⊢
        cases hold : s.space.pageTable[v]? with
        | none =>
          rw [synced_getElem?, hold] at hpres
          cases hpres
        | some e₀ =>
          rw [synced_getElem?, hold, Option.map_some] at hpres
          exact (syncEntry_valid s.tlb v e₀).1.symm.trans hpres

theorem Paging.step (hp : Paging s) (hread : ReadsOnly read) (h : PagingStep read s s') :
    SlotsKept s s' := by
  cases h with
  | hit acc found runs =>
    obtain ⟨i, mem, hv, -, hw, rfl⟩ | ⟨hf, -⟩ := attempt_cases runs
    · exact ⟨hp.touch mem hv hw, fun v c hin => Or.inl hin⟩
    · exact absurd hf found
  | fault n inSpace miss runs =>
    obtain ⟨-, h⟩ := faultBy_inv runs
    obtain ⟨hpaging, htaken⟩ := (hp.withLastFault n).moveraMemoria hread inSpace miss h
    exact ⟨hpaging, htaken⟩

/-- The slots that pages went to, after a step: a page that has left memory went to the slot that
`swapMap->Find()` gave. -/
def slotsTaken (s s' : Vm) (last : ℕ → Option ℕ) (v : ℕ) : Option ℕ :=
  if s.present v && !s'.present v then some s.swapMap.find.1.toNat else last v

def SlotStart (x : Vm × (ℕ → Option ℕ)) : Prop := PagingStart x.1 ∧ x.2 = fun _ => none

def SlotStep (read : ℤ → Kernel (List Byte)) (x x' : Vm × (ℕ → Option ℕ)) : Prop :=
  PagingStep read x.1 x'.1 ∧ x'.2 = slotsTaken x.1 x'.1 x.2

def swapIn (read : ℤ → Kernel (List Byte)) (n campo : ℤ) : Kernel Unit := do
  syncTlb
  let ubcMemFis ← findFrameBy read true
  installPage n ubcMemFis true false
  refillTlb n
  readSwap n campo
  setIpt ubcMemFis n

theorem Paging.swapIn (hp : Paging s) {n c : ℕ} (hin : s.inSlot n c) :
    moveraMemoriaBy read n s = swapIn read n c s := by
  obtain ⟨e, he, hv, hd, hc⟩ := hp.synced_inSlot.mpr hin
  have hcode : ¬n < s.space.codePages := by
    intro hn
    rw [(hp.sync.code n e he hn).1] at hd
    cases hd
  have hlt : ¬((n : ℤ) < (divRoundUp (s.space.synced s.tlb).noffH1.code.size pageSize : ℕ)) := by
    rw [Nat.cast_lt]
    exact hcode
  obtain ⟨e₀, he₀, rfl⟩ := bits_eq_some.mp he
  have hv₀ : e₀.valid = false := hv
  have hd₀ : e₀.dirty = true := hd
  have hc₀ : e₀.physicalPage = c := hc
  have hmade : (s.space.synced s.tlb).copied = false := hp.made
  simp only [moveraMemoriaBy, Nachos.swapIn, EStateM.apply_bind, syncTlb_ok hp.range,
    EStateM.apply_get, hmade, page_ok (s := { s with space := s.space.synced s.tlb }) he₀,
    EStateM.apply_ite, hv₀, hd₀, hc₀, Bool.not_true, Bool.not_false, Bool.and_false,
    Bool.false_eq_true, if_false, if_true, ite_self]
  rw [if_neg hlt]

/-- The marked slots are those of the absent dirty pages, each of one page, and a fault on such a
page brings it back from the slot of its last swap-out. -/
theorem slots_accounted {x : Vm × (ℕ → Option ℕ)} (hread : ReadsOnly read)
    (h : Reachable SlotStart (SlotStep read) x) :
    (∀ c < numPhysPages * 2, x.1.swapMap.bit c = true ↔ ∃ v, x.1.inSlot v c) ∧
      (∀ v e, x.1.space.pageTable[v]? = some e → e.valid = false → e.dirty = true →
        ∃ c < numPhysPages * 2, x.1.inSlot v c) ∧
      (∀ v v' c, x.1.inSlot v c → x.1.inSlot v' c → v = v') ∧
      ∀ n c, x.1.inSlot n c → x.2 n = some c ∧
        moveraMemoriaBy read n { x.1 with lastFault := n } =
          swapIn read n c { x.1 with lastFault := n } := by
  have hinv : Paging x.1 ∧ ∀ v c, x.1.inSlot v c → x.2 v = some c := by
    refine h.invariant (P := fun x => Paging x.1 ∧ ∀ v c, x.1.inSlot v c → x.2 v = some c) ?_ ?_
    · rintro x ⟨hstart, -⟩
      have hp := paging_start hstart
      refine ⟨hp, fun v c hin => absurd hin (hp.unused (fun hall => ?_) v c)⟩
      have hno := (hstart.tlb 0).1
      rw [hall 0] at hno
      cases hno
    · rintro x x' ⟨hp, hlast⟩ ⟨hstep, hx'⟩
      obtain ⟨hp', htaken⟩ := hp.step hread hstep
      refine ⟨hp', fun v c hin => ?_⟩
      have habs : x'.1.present v = false := by
        obtain ⟨e, he, hv, -⟩ := hin
        rw [present_of_bits he, hv]
      rw [hx', slotsTaken, habs]
      obtain hold | ⟨hpres, hfind⟩ := htaken v c hin
      · have hpres : x.1.present v = false := by
          obtain ⟨e, he, hv, -⟩ := hold
          rw [present_of_bits he, hv]
        rw [hpres]
        exact hlast v c hold
      · rw [hpres, hfind]
        rfl
  obtain ⟨hp, hlast⟩ := hinv
  refine ⟨hp.marks, fun v e he hv hd => ?_, hp.once, fun n c hin =>
    ⟨hlast n c hin, (hp.withLastFault n).swapIn hin⟩⟩
  have hbits : x.1.bits v = some e.unused := by rw [Vm.bits, he, Option.map_some]
  obtain ⟨c, hc, hphys⟩ := hp.slot v _ hbits hv hd
  exact ⟨c, hc, e.unused, hbits, hv, hd, hphys⟩

theorem pagingStart_mappedVm : PagingStart mappedVm :=
  ⟨⟨dataProgram, [], rfl⟩, fun i => by revert i; decide, fun _ => ⟨rfl, rfl⟩, rfl, rfl, rfl, rfl⟩

def tryPaging (read : ℤ → Kernel (List Byte)) (s : Vm) (acc : Access) : Option Vm :=
  let k := if (s.tlb.lookup (acc.addr.toNat / pageSize : ℕ)).isSome then acc.attempt
    else faultBy read (acc.addr.toNat / pageSize : ℕ)
  match k s with
  | .ok _ s' => if acc.addr.toNat / pageSize < s.space.pageTable.length then some s' else none
  | .error _ _ => none

theorem pagingStep_of_tryPaging {acc : Access} (h : tryPaging read s acc = some s') :
    PagingStep read s s' := by
  unfold tryPaging at h
  dsimp only at h
  cases hl : s.tlb.lookup (acc.addr.toNat / pageSize : ℕ) with
  | some i =>
    rw [hl, Option.isSome_some, if_pos rfl] at h
    split at h
    · rename_i hrun
      split_ifs at h
      cases h
      obtain ⟨hv, hvp⟩ := Tlb.lookup_eq_some hl
      exact .hit acc (fun hf => lookup_of_faults hf i hv hvp) hrun
    · cases h
  | none =>
    rw [hl, Option.isSome_none, if_neg (by decide)] at h
    split at h
    · rename_i hrun
      split_ifs at h with hlt
      cases h
      exact .fault _ hlt (Tlb.lookup_eq_none.mp hl) hrun
    · cases h

def trySlots (x : Vm × (ℕ → Option ℕ)) (acc : Access) : Option (Vm × (ℕ → Option ℕ)) :=
  (tryPaging memoryBytes x.1 acc).map fun s' => (s', slotsTaken x.1 s' x.2)

theorem reachable_trySlots {accs : List Access} {x : Vm × (ℕ → Option ℕ)}
    (h : accs.foldlM trySlots (mappedVm, fun _ => none) = some x) :
    Reachable SlotStart (SlotStep memoryBytes) x := by
  refine Reachable.of_foldlM (fun x acc x' (h : trySlots x acc = some x') => ?_)
    (.init ⟨pagingStart_mappedVm, rfl⟩) h
  obtain ⟨s', hs', rfl⟩ := Option.map_eq_some_iff.mp h
  exact ⟨pagingStep_of_tryPaging hs', rfl⟩

/-- A store to each of 33 pages, one more than there are frames. -/
def manyStores : List Access :=
  (List.range 33).flatMap fun v => [.store (pageAddr v) 1 1, .store (pageAddr v) 1 1]

theorem slots_accounted_manyStores : ∃ x, manyStores.foldlM trySlots (mappedVm, fun _ => none) =
    some x ∧ x.1.inSlot 28 0 ∧ x.1.swapMap.bit 0 = true ∧ x.2 28 = some 0 := by
  have hrun : (manyStores.foldlM trySlots (mappedVm, fun _ => none)).any
      (fun x : Vm × (ℕ → Option ℕ) => (x.1.bits 28).any fun e =>
        !e.valid && e.dirty && decide (e.physicalPage = ((0 : ℕ) : ℤ))) = true := by
    decide +kernel
  obtain ⟨x, hx, hslot⟩ := (Option.any_eq_true _ _).mp hrun
  obtain ⟨e, he, hbits⟩ := (Option.any_eq_true _ _).mp hslot
  simp only [Bool.and_eq_true, Bool.not_eq_true', decide_eq_true_eq] at hbits
  have hin : x.1.inSlot 28 0 := ⟨e, he, hbits.1.1, hbits.1.2, hbits.2⟩
  obtain ⟨hmarks, -, -, hlast⟩ := slots_accounted memoryBytes_readsOnly (reachable_trySlots hx)
  exact ⟨x, hx, hin, (hmarks 0 (by norm_num)).mpr ⟨28, hin⟩, (hlast 28 0 hin).1⟩

end Nachos
