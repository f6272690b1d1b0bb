import Nachos.SwapRuns

/-! Page faults make progress (`addrspace.cc`, `exception.cc`). The two sweeps of `buscarVictima`
find a frame, so a fault is served unless the swap file is full, and then the page is in exactly
one TLB slot. A second fault in a row on one page, which `Nachos_PageFault` does not survive,
cannot happen. -/
namespace Nachos

variable {s s' : Vm} {read : ℤ → Kernel (List Byte)}

def Vm.coreInRange (s : Vm) (fs : List (Fin numPhysPages)) : Prop :=
  ∀ f ∈ fs, f.val < s.space.iptEntries ∧
    ∃ v < s.space.pageTable.length, s.space.ipt f = (v : ℕ)

theorem iptVpn_ok {f : Fin numPhysPages} (h : f.val < s.space.iptEntries) :
    iptVpn f s = .ok (s.space.ipt f) s := by
  simp only [iptVpn, EStateM.apply_bind, EStateM.apply_get, if_neg (not_le.mpr h),
    EStateM.apply_pure]

def Vm.used (s : Vm) (v : ℕ) : Bool := (s.space.pageTable[v]?).any (·.use)

theorem used_setPage {n v : ℕ} (h : Vm.used { s with
    space := s.space.setPage n fun e => { e with use := false } } v = true) :
    v ≠ n ∧ s.used v = true := by
  simp only [Vm.used, AddrSpace.setPage, Int.toNat_natCast, List.getElem?_modify] at h
  by_cases hv : n = v
  · subst hv
    cases he : s.space.pageTable[n]? with
    | none => simp [he] at h
    | some e => simp [he] at h
  · exact ⟨Ne.symm hv, by simpa [hv, Vm.used] using h⟩

theorem used_sweepFrames {fs : List (Fin numPhysPages)} {r : Option ℤ}
    (h : sweepFrames fs s = .ok r s') {v : ℕ} (hv : s'.used v = true) : s.used v = true := by
  induction fs generalizing s with
  | nil =>
    cases h
    exact hv
  | cons f fs ih =>
    obtain ⟨vpn, s₂, hvpn, h⟩ := EStateM.bind_eq_ok h
    obtain ⟨rfl, rfl⟩ := iptVpn_inv hvpn
    obtain ⟨e, s₃, hp, h⟩ := EStateM.bind_eq_ok h
    obtain ⟨n, hn, he, hs⟩ := page_inv hp
    rw [hs] at h
    simp only [EStateM.apply_ite] at h
    split_ifs at h
    · obtain ⟨⟨⟩, s₄, hu, h⟩ := EStateM.bind_eq_ok h
      obtain ⟨n', -, -, -, rfl⟩ := updatePage_inv hu
      exact (used_setPage (ih h)).2
    · cases h
      exact hv

/-- A round of `buscarVictima` comes to its end, and one that finds nothing has cleared the use
bits it has seen. -/
theorem sweepFrames_ok {fs : List (Fin numPhysPages)} (h : s.coreInRange fs) :
    ∃ r s', sweepFrames fs s = .ok r s' ∧
      (r = none → ∀ f ∈ fs, ∀ v : ℕ, s.space.ipt f = v → s'.used v = false) := by
  induction fs generalizing s with
  | nil => exact ⟨none, s, rfl, fun _ f hf => absurd hf List.not_mem_nil⟩
  | cons f fs ih =>
    obtain ⟨hent, n, hn, hf⟩ := h f List.mem_cons_self
    obtain ⟨e, he⟩ := exists_page hn
    simp only [sweepFrames, EStateM.apply_bind, iptVpn_ok hent, hf, page_ok he,
      EStateM.apply_ite, EStateM.apply_pure]
    by_cases hu : e.use = true
    · rw [if_pos hu, updatePage_ok he]
      have hrest : Vm.coreInRange { s with
          space := s.space.setPage n fun e => { e with use := false } } fs := by
        intro f' hf'
        obtain ⟨hent', v, hv, hi⟩ := h f' (List.mem_cons_of_mem _ hf')
        exact ⟨hent', v, by simpa [AddrSpace.setPage] using hv, hi⟩
      obtain ⟨r, s', hrun, hclear⟩ := ih hrest
      refine ⟨r, s', hrun, fun hr f' hf' v hv => ?_⟩
      rcases List.mem_cons.mp hf' with rfl | hf'
      · obtain rfl : n = v := by exact_mod_cast hf.symm.trans hv
        by_contra hused
        exact (used_setPage (used_sweepFrames hrun (by simpa using hused))).1 rfl
      · exact hclear hr f' hf' v hv
    · rw [if_neg hu]
      refine ⟨_, s, rfl, fun hr => ?_⟩
      cases hr

/-- The `while` loop of `buscarVictima` needs at most two rounds. -/
theorem buscarVictima_ok (h : s.coreInRange (List.finRange numPhysPages)) :
    ∃ victima s', buscarVictima s = .ok victima s' := by
  obtain ⟨f, fs, hfs⟩ : ∃ f fs, (List.finRange numPhysPages).tail = f :: fs := ⟨_, _, rfl⟩
  have htail : s.coreInRange (f :: fs) := by
    intro f' _
    exact h f' (List.mem_finRange f')
  obtain ⟨r, s₁, h₁, hclear⟩ := sweepFrames_ok htail
  simp only [buscarVictima, hfs, EStateM.apply_bind, h₁]
  cases r with
  | some victima => exact ⟨victima, s₁, rfl⟩
  | none =>
    have hsame := (swept_sweepFrames h₁).1.same
    obtain ⟨hent, n, hn, hf⟩ := htail f List.mem_cons_self
    rw [← hsame.entries] at hent
    have hn₁ : n < s₁.space.pageTable.length := by
      rw [hsame.length]
      exact hn
    obtain ⟨e, he⟩ := exists_page hn₁
    have huse : e.use = false := by
      have := hclear rfl f List.mem_cons_self n hf
      rw [Vm.used, he] at this
      exact this
    rw [← hsame.ipt] at hf
    simp only [sweepFrames, EStateM.apply_bind, iptVpn_ok hent, hf, page_ok he,
      EStateM.apply_ite, EStateM.apply_pure, huse, Bool.false_eq_true, if_false]
    exact ⟨_, s₁, rfl⟩

def ReadsAnywhere (read : ℤ → Kernel (List Byte)) : Prop :=
  ∀ start s, ∃ bytes, read start s = .ok bytes s

theorem ReadsAnywhere.readsOnly (h : ReadsAnywhere read) : ReadsOnly read :=
  fun start s => Or.inl (h start s)

theorem swapOutBy_ok (hread : ReadsAnywhere read) (hr : s.tlbInRange)
    (hlen : tlbSize ≤ s.space.pageTable.length) {g : Fin numPhysPages}
    (hg : (s.tlb s.iter).physicalPage = (g.val : ℕ))
    (hroom : ∃ c < numPhysPages * 2, s.swapMap.bit c = false) :
    ∃ s', swapOutBy read s = .ok () s' := by
  obtain ⟨h₀, hlt⟩ := hr s.iter
  obtain ⟨v, hv⟩ := Int.eq_ofNat_of_zero_le h₀
  have hvlt : v < s.space.pageTable.length := by omega
  obtain ⟨e, he⟩ := exists_page hvlt
  have hilt : s.iter.val < s.space.pageTable.length := lt_of_lt_of_le s.iter.isLt hlen
  obtain ⟨source, hi⟩ := exists_page hilt
  obtain ⟨-, hfull⟩ | ⟨c, hc, hfind, -⟩ := s.swapMap.find_cases
  · obtain ⟨c, hc, hbit⟩ := hroom
    rw [hfull c hc] at hbit
    cases hbit
  obtain ⟨bytes, hbytes⟩ := hread source.physicalPage { s with swapMap := s.swapMap.setBit c }
  have hneg : ¬((c : ℤ) < 0) := by omega
  simp only [swapOutBy, EStateM.apply_bind, EStateM.apply_get, hv, page_ok he, EStateM.apply_ite]
  by_cases hd : e.dirty = true
  · rw [if_pos hd]
    simp only [hfind, EStateM.apply_modify,
      page_ok (s := { s with swapMap := s.swapMap.setBit c }) hi, hbytes, if_neg hneg, hg,
      BitMap.clear_ok s.memoryMap g.isLt, liftTrap, EStateM.apply_pure]
    generalize hs₁ : Vm.mk _ _ = s₁
    have he₁ : s₁.space.pageTable[v]? = some e := by
      rw [← hs₁]
      exact he
    rw [updatePage_ok he₁]
    have he₂ : (s₁.space.setPage v fun e => { e with physicalPage := c }).pageTable[v]? =
        some { e with physicalPage := c } := by
      simp [AddrSpace.setPage, he₁]
    exact ⟨_, updatePage_ok (s := { s₁ with
      space := s₁.space.setPage v fun e => { e with physicalPage := c } }) he₂ _⟩
  · rw [if_neg hd]
    exact ⟨s, rfl⟩

theorem Paging.found_frame (hp : Paging s) {f : ℤ} {writeBack : Bool}
    (h : FrameFound s writeBack f s') : ∃ f' : Fin numPhysPages, f = (f'.val : ℕ) := by
  have hvictim : ∀ (k : Fin numPhysPages) (v : ℕ) (e : TranslationEntry),
      (∀ i < numPhysPages, s.memoryMap.bit i = true) → s.space.ipt k = v → s.bits v = some e →
      ∃ f' : Fin numPhysPages, e.physicalPage = (f'.val : ℕ) := by
    intro k v e hfull hk he
    obtain ⟨v', e', hk', he', -, hphys⟩ := hp.core k (hfull k k.isLt)
    obtain rfl : v = v' := by exact_mod_cast hk.symm.trans hk'
    rw [he] at he'
    obtain rfl := Option.some.inj he'
    exact ⟨k, hphys⟩
  cases h with
  | @free i _ lt => exact ⟨⟨i, lt⟩, rfl⟩
  | stolen full core victim => exact hvictim _ _ _ full core victim
  | swapped back full core victim => exact hvictim _ _ _ full core victim

theorem Paging.findFrameBy_ok (hp : Paging s) (hread : ReadsAnywhere read)
    (hlen : tlbSize ≤ s.space.pageTable.length)
    (hroom : ∃ c < numPhysPages * 2, s.swapMap.bit c = false) (writeBack : Bool) :
    ∃ (f : Fin numPhysPages) (s' : Vm), findFrameBy read writeBack s = .ok (f.val : ℕ) s' := by
  have hrun : ∃ f s', findFrameBy read writeBack s = .ok f s' := by
    simp only [findFrameBy, EStateM.apply_bind, EStateM.apply_get]
    obtain ⟨hfind, hfull⟩ | ⟨i, hi, hfind, -⟩ := s.memoryMap.find_cases
    · rw [hfind]
      simp only [EStateM.apply_modify, if_true, EStateM.apply_bind]
      have hcore : s.coreInRange (List.finRange numPhysPages) := by
        intro f _
        obtain ⟨v, e, hi, he, -⟩ := hp.core f (hfull f f.isLt)
        exact ⟨by rw [hp.entries]; exact f.isLt, v, lt_of_bits he, hi⟩
      obtain ⟨victima, s₁, h₁⟩ := buscarVictima_ok hcore
      have hsame := (swept_buscarVictima h₁).1.same
      have hmaps := (swept_buscarVictima h₁).1.maps
      have h₁' : buscarVictima { s with memoryMap := s.memoryMap } = .ok victima s₁ := h₁
      rw [h₁']
      cases writeBack with
      | false => exact ⟨victima, s₁, rfl⟩
      | true =>
        obtain ⟨v, e, he, hv, -, hphys⟩ := hp.hit s.iter (hp.filling.full_tlb hfull _)
        obtain ⟨g, hg⟩ := hp.frame v e he hv
        obtain ⟨s₂, h₂⟩ := swapOutBy_ok (s := s₁) (g := g) hread
          (fun i => by rw [hsame.tlb, hsame.length]; exact hp.range i)
          (by rw [hsame.length]; exact hlen)
          (by rw [hsame.tlb, hsame.iter]; exact hphys.trans hg)
          (by rw [hmaps.2]; exact hroom)
        exact ⟨victima, s₂, by simp only [if_true, EStateM.apply_bind, h₂, EStateM.apply_pure]⟩
    · rw [hfind]
      have hne : ¬((i : ℤ) = -1) := by omega
      simp only [EStateM.apply_modify, EStateM.apply_ite, if_neg hne]
      exact ⟨_, _, rfl⟩
  obtain ⟨f, s', h⟩ := hrun
  obtain ⟨f', rfl⟩ := hp.found_frame (frameFound hread.readsOnly h)
  exact ⟨f', s', h⟩

theorem placePage_ok {n : ℕ} (hn : n < s.space.pageTable.length) (f : Fin numPhysPages)
    (dirty readOnly : Bool) : ∃ s₁ s₂, installPage n (f.val : ℕ) dirty readOnly s = .ok () s₁ ∧
      refillTlb n s₁ = .ok () s₂ ∧
      s₂.space.pageTable[n]? = some ⟨n, f.val, true, readOnly, true, dirty⟩ := by
  obtain ⟨e, he⟩ := exists_page hn
  exact ⟨_, _, installPage_ok dirty readOnly he, refillTlb_ok (List.getElem?_set_self hn),
    List.getElem?_set_self hn⟩

theorem readSwap_ok {n c : ℕ} {e : TranslationEntry} {f : Fin numPhysPages}
    (he : s.space.pageTable[n]? = some e) (hf : e.physicalPage = (f.val : ℕ))
    (hc : c < numPhysPages * 2) : ∃ s', readSwap n c s = .ok () s' := by
  have hneg : ¬((c : ℤ) < 0) := by omega
  simp only [readSwap, EStateM.apply_bind, page_ok he, EStateM.apply_get, if_neg hneg, hf,
    putFrame_ok, BitMap.clear_ok s.swapMap hc, liftTrap, EStateM.apply_pure,
    EStateM.apply_modify]
  exact ⟨_, rfl⟩

theorem Paging.load_ok (hp : Paging s) (hread : ReadsAnywhere read)
    (hlen : tlbSize ≤ s.space.pageTable.length)
    (hroom : ∃ c < numPhysPages * 2, s.swapMap.bit c = false) {n : ℕ}
    (hn : n < s.space.pageTable.length) (writeBack dirty readOnly : Bool) {k : Kernel Unit}
    (hk : ∀ s₁ (f : Fin numPhysPages),
      s₁.space.pageTable[n]? = some ⟨n, f.val, true, readOnly, true, dirty⟩ →
      ∃ s₂, k s₁ = .ok () s₂) (hkeep : ∀ {s₁ s₂}, k s₁ = .ok () s₂ → SameEntries s₁ s₂) :
    ∃ s', (do
      let ubcMemFis ← findFrameBy read writeBack
      installPage n ubcMemFis dirty readOnly
      refillTlb n
      k
      setIpt ubcMemFis n : Kernel Unit) s = .ok () s' := by
  obtain ⟨f, s₁, h₁⟩ := hp.findFrameBy_ok hread hlen hroom writeBack
  have hsame := (frameFound hread.readsOnly h₁).same
  obtain ⟨s₂, s₃, h₂, h₃, he₃⟩ := placePage_ok (s := s₁) (by rw [hsame.length]; exact hn) f dirty
    readOnly
  obtain ⟨s₄, h₄⟩ := hk s₃ f he₃
  have hent : s₄.space.iptEntries = numPhysPages := (hkeep h₄).trans
    ((refillTlb_entries h₃).trans ((updatePage_entries h₂).trans (hsame.entries.trans hp.entries)))
  simp only [EStateM.apply_bind, h₁, h₂, h₃, h₄]
  exact ⟨_, setIpt_ok f n (by rw [hent]; exact f.isLt)⟩

theorem Paging.moveraMemoriaBy_ok (hp : Paging s) (hread : ReadsAnywhere read)
    (hlen : tlbSize ≤ s.space.pageTable.length)
    (hroom : ∃ c < numPhysPages * 2, s.swapMap.bit c = false) {n : ℕ}
    (hn : n < s.space.pageTable.length) : ∃ s', moveraMemoriaBy read n s = .ok () s' := by
  obtain ⟨e, he⟩ := exists_page hn
  cases hv : e.valid with
  | true => exact ⟨_, moveraMemoriaBy_valid hp.range hp.made he hv⟩
  | false =>
    have hlen₀ : (s.space.synced s.tlb).pageTable.length = s.space.pageTable.length :=
      List.length_mapIdx
    have hload := hp.sync.load_ok hread (by rw [hlen₀]; exact hlen) hroom (by rw [hlen₀]; exact hn)
    have he' : (s.space.synced s.tlb).pageTable[n]? = some (syncEntry s.tlb n e) := by
      rw [synced_getElem?, he, Option.map_some]
    have hv' : (syncEntry s.tlb n e).valid = false := (syncEntry_valid s.tlb n e).1.trans hv
    have hexec : ∀ (dirty readOnly : Bool) (s₁ : Vm) (f : Fin numPhysPages),
        s₁.space.pageTable[n]? = some ⟨n, f.val, true, readOnly, true, dirty⟩ →
        ∃ s₂, readExecutable n s₁ = .ok () s₂ :=
      fun _ _ _ f he₁ => ⟨_, readExecutable_ok f he₁ rfl⟩
    have hmade : (s.space.synced s.tlb).copied = false := hp.made
    simp only [moveraMemoriaBy, EStateM.apply_bind, syncTlb_ok hp.range, EStateM.apply_get, hmade,
      page_ok (s := { s with space := s.space.synced s.tlb }) he', hv', Bool.not_false,
      Bool.true_and, if_true, Bool.false_eq_true, if_false]
    by_cases hcode : (n : ℤ) < (divRoundUp (s.space.synced s.tlb).noffH1.code.size pageSize : ℕ)
    · rw [if_pos hcode]
      exact hload false false true (hexec _ _) readExecutable_entries
    rw [if_neg hcode]
    cases hd : (syncEntry s.tlb n e).dirty with
    | false =>
      simp only [Bool.not_false, if_true]
      split_ifs
      · exact hload true false false (hexec _ _) readExecutable_entries
      · have hnone : ∀ {s₁ s₂ : Vm}, (pure () : Kernel Unit) s₁ = .ok () s₂ →
            SameEntries s₁ s₂ := by
          intro s₁ s₂ h
          cases h
          rfl
        simpa only [pure_bind] using
          hload true false false (k := pure ()) (fun s₁ _ _ => ⟨s₁, rfl⟩) hnone
    | true =>
      have hbits : Vm.bits { s with space := s.space.synced s.tlb } n =
          some (syncEntry s.tlb n e).unused := by
        rw [Vm.bits, he', Option.map_some]
      obtain ⟨c, hc, hphys⟩ := hp.sync.slot n _ hbits hv' hd
      have hphys' : (syncEntry s.tlb n e).physicalPage = (c : ℕ) := hphys
      simp only [Bool.not_true, Bool.false_eq_true, if_false, ite_self, hphys']
      exact hload true true false (fun s₁ f he₁ => readSwap_ok he₁ rfl hc) readSwap_entries

theorem Paging.moveraMemoria_slot (hp : Paging s) (hread : ReadsOnly read) {n : ℕ}
    (hn : n < s.space.pageTable.length) (h : moveraMemoriaBy read n s = .ok () s') :
    (s'.tlb s.iter).valid = true ∧ (s'.tlb s.iter).virtualPage = n ∧
      s'.lastFault = s.lastFault ∧ s'.space.pageTable.length = s.space.pageTable.length := by
  obtain ⟨e, he⟩ := exists_page hn
  cases hv : e.valid with
  | true =>
    rw [moveraMemoriaBy_valid hp.range hp.made he hv] at h
    cases h
    obtain ⟨hval, -, -, hvp⟩ := syncEntry_valid s.tlb n e
    have hself := hp.self n e.unused (by rw [Vm.bits, he, Option.map_some])
    have hslot : (s.refilled (syncEntry s.tlb n e)).tlb s.iter = syncEntry s.tlb n e :=
      Function.update_self _ _ _
    rw [hslot]
    exact ⟨hval.trans hv, hvp.trans hself, rfl, List.length_mapIdx⟩
  | false =>
    obtain ⟨s₁, f, d, hl⟩ := loads_moveraMemoria hread hp.range he hv h
    rw [hl.tlb, Function.update_self]
    exact ⟨rfl, rfl, hl.lastFault, hl.length⟩

/-- A load or store that finds its page in the TLB. -/
def HitStep (s s' : Vm) : Prop := ∃ acc : Access, ¬acc.faults s ∧ acc.attempt s = .ok () s'

theorem hitStep_inv (h : HitStep s s') : (∀ n, s'.misses n ↔ s.misses n) ∧
    s'.lastFault = s.lastFault ∧ s'.space = s.space := by
  obtain ⟨acc, hno, hrun⟩ := h
  obtain ⟨i, mem, -, -, -, rfl⟩ | ⟨hf, -⟩ := attempt_cases hrun
  · refine ⟨fun n => forall_congr' fun k => ?_, rfl, rfl⟩
    by_cases hk : k = i
    · dsimp only
      rw [hk, Function.update_self]
      rfl
    · dsimp only
      rw [Function.update_of_ne hk]
  · exact absurd hf hno

/-- What holds between two faults, with the page of the last one still in the TLB. -/
structure Serving (s : Vm) : Prop where
  paging : Paging s
  last : ∀ n : ℕ, s.lastFault = n → ¬s.misses n
  length : tlbSize ≤ s.space.pageTable.length

theorem serving_start (h : PagingStart s) : Serving s := by
  refine ⟨paging_start h, fun n hn => ?_, ?_⟩
  · rw [h.lastFault] at hn
    omega
  · obtain ⟨noffH, ejecutable, hspace⟩ := h.space
    rw [hspace, AddrSpace.new, List.length_map, List.length_range]
    exact le_trans (by decide) noffH.stack_le_numPages

theorem Serving.step (hs : Serving s) (hread : ReadsOnly read) (h : PagingStep read s s') :
    Serving s' := by
  have hp' := (hs.paging.step hread h).paging
  cases h with
  | hit acc found runs =>
    obtain ⟨hmiss, hlast, hspace⟩ := hitStep_inv ⟨acc, found, runs⟩
    refine ⟨hp', fun n hn => ?_, ?_⟩
    · rw [hmiss]
      rw [hlast] at hn
      exact hs.last n hn
    · rw [hspace]
      exact hs.length
  | fault n inSpace miss runs =>
    obtain ⟨-, h⟩ := faultBy_inv runs
    obtain ⟨hv, hvp, hlast, hlen⟩ := (hs.paging.withLastFault n).moveraMemoria_slot hread inSpace h
    refine ⟨hp', fun n' hn' hmiss => ?_, ?_⟩
    · have hcast : ((n : ℕ) : ℤ) = n' := hlast.symm.trans hn'
      obtain rfl : n = n' := by exact_mod_cast hcast
      exact hmiss _ hv hvp
    · rw [hlen]
      exact hs.length

theorem Serving.faultBy_eq (hs : Serving s) (read : ℤ → Kernel (List Byte)) {n : ℕ}
    (hmiss : s.misses n) :
    s.lastFault ≠ n ∧ faultBy read n s = moveraMemoriaBy read n { s with lastFault := n } := by
  have hlast : s.lastFault ≠ n := fun h => hs.last n h hmiss
  refine ⟨hlast, ?_⟩
  simp only [faultBy, EStateM.apply_bind, EStateM.apply_get, EStateM.apply_ite, if_neg hlast,
    EStateM.apply_set]

/-- Over every run: no page is in two valid TLB slots; a fault passes the `ASSERT` on the page of
the fault before it, leaves its page in exactly one slot, where the lookup finds it and where it
stays up to the next fault; and it is served unless the swap file is full. -/
theorem faults_progress (hread : ReadsOnly read) (h : Reachable PagingStart (PagingStep read) s) :
    (∀ i j, (s.tlb i).valid = true → (s.tlb j).valid = true →
      (s.tlb i).virtualPage = (s.tlb j).virtualPage → i = j) ∧
    ∀ n < s.space.pageTable.length, s.misses n →
      s.lastFault ≠ n ∧
      (∀ s', faultBy read n s = .ok () s' → s'.lastFault = n ∧
        (∃! i, (s'.tlb i).valid = true ∧ (s'.tlb i).virtualPage = n) ∧
        (∃ i, s'.tlb.lookup n = some i) ∧
        ∀ s'', Reachable (· = s') HitStep s'' → ¬s''.misses n) ∧
      (ReadsAnywhere read → (∃ c < numPhysPages * 2, s.swapMap.bit c = false) →
        ∃ s', faultBy read n s = .ok () s') := by
  have hs : Serving s := h.invariant (fun _ => serving_start) fun _ _ hs h => hs.step hread h
  refine ⟨hs.paging.apart, fun n hn hmiss => ?_⟩
  obtain ⟨hlast, heq⟩ := hs.faultBy_eq read hmiss
  refine ⟨hlast, fun s' hs' => ?_, fun hall hroom => ?_⟩
  · have hs₁ := hs.step hread (.fault n hn hmiss hs')
    rw [heq] at hs'
    obtain ⟨hv, hvp, hl, -⟩ := (hs.paging.withLastFault n).moveraMemoria_slot hread hn hs'
    have hin := hs₁.last n hl
    refine ⟨hl, ⟨_, ⟨hv, hvp⟩, fun j hj => ?_⟩, ?_, fun s'' hr => ?_⟩
    · exact hs₁.paging.apart _ _ hj.1 hv (hj.2.trans hvp.symm)
    · cases hlook : s'.tlb.lookup n with
      | none => exact absurd (Tlb.lookup_eq_none.mp hlook) hin
      | some i => exact ⟨i, rfl⟩
    · refine hr.invariant (P := fun s'' => ¬s''.misses n) ?_ fun s₁ s₂ hno hstep => ?_
      · rintro s'' rfl
        exact hin
      · rw [(hitStep_inv hstep).1]
        exact hno
  · rw [heq]
    exact (hs.paging.withLastFault n).moveraMemoriaBy_ok hall hs.length hroom hn

theorem faults_progress_manyStores : ∃ s s',
    manyStores.foldlM (tryPaging (strayBytes [])) mappedVm = some s ∧ s.inSlot 28 0 ∧
      faultBy (strayBytes []) 28 s = .ok () s' ∧ ∃ i, s'.tlb.lookup 28 = some i := by
  have hrun : (manyStores.foldlM (tryPaging (strayBytes [])) mappedVm).any (fun s : Vm =>
      (s.bits 28).any (fun e =>
        !e.valid && e.dirty && decide (e.physicalPage = ((0 : ℕ) : ℤ))) &&
      decide (28 < s.space.pageTable.length) && (s.tlb.lookup (28 : ℕ)).isNone &&
      !s.swapMap.bit 1) = true := by
    decide +kernel
  obtain ⟨s, hs, hbits⟩ := (Option.any_eq_true _ _).mp hrun
  simp only [Bool.and_eq_true, Bool.not_eq_true', decide_eq_true_eq, Option.isNone_iff_eq_none,
    Option.any_eq_true] at hbits
  obtain ⟨⟨⟨⟨e, he, ⟨hv, hd⟩, hc⟩, hlt⟩, hmiss⟩, hroom⟩ := hbits
  have hread : ReadsAnywhere (strayBytes []) := strayBytes_ok []
  have hreach : Reachable PagingStart (PagingStep (strayBytes [])) s :=
    Reachable.of_foldlM (fun s acc s' (h : tryPaging (strayBytes []) s acc = some s') =>
      pagingStep_of_tryPaging h) (.init pagingStart_mappedVm) hs
  obtain ⟨-, hfault⟩ := faults_progress hread.readsOnly hreach
  obtain ⟨-, hserved, hreturns⟩ := hfault 28 hlt (Tlb.lookup_eq_none.mp hmiss)
  obtain ⟨s', hs'⟩ := hreturns hread ⟨1, by norm_num, hroom⟩
  exact ⟨s, s', hs, ⟨e, he, hv, hd, hc⟩, hs', (hserved s' hs').2.2.1⟩

end Nachos
