import Nachos.VmSystem

/-! Who owns the physical frames in the VM build. Since `ipt` has one entry, a page fault comes
back only for a page in memory or with frame 0, and no victim is ever looked for. As long as
`SaveState` leaves the page in memory valid, the frame that `memoryMap` marks belongs to exactly
one page of one space; a context switch that clears its valid bit breaks this. -/
namespace Nachos

section Fault

variable {s s' : Vm} {vpn : ℕ} {e : TranslationEntry}

theorem readSwap_nonneg {v campo : ℤ} (h : readSwap v campo s = .ok () s') : 0 ≤ campo := by
  obtain ⟨e, s₁, -, h⟩ := EStateM.bind_eq_ok h
  obtain ⟨s₂, s₃, -, h⟩ := EStateM.bind_eq_ok h
  by_contra hneg
  rw [if_pos (not_le.mp hneg)] at h
  cases h

/-- A page that was never written to the swap file is not read from it. -/
theorem moveraMemoria_unswapped (h : moveraMemoria vpn s = .ok () s')
    (he : s.space.pageTable[vpn]? = some e) (hv : e.valid = false) (hp : e.physicalPage = -1) :
    vpn < s.space.codePages ∨ (syncEntry s.tlb vpn e).dirty = false := by
  have hr := (moveraMemoria_page h).1
  have hmade := moveraMemoria_made h
  by_contra hc
  obtain ⟨hc, hd⟩ := not_or.mp hc
  have he' : (s.space.synced s.tlb).pageTable[vpn]? = some (syncEntry s.tlb vpn e) := by
    rw [synced_getElem?, he, Option.map_some]
  obtain ⟨hv', hp', -⟩ := syncEntry_valid s.tlb vpn e
  have hcode : ¬(vpn : ℤ) < (divRoundUp (s.space.synced s.tlb).noffH1.code.size pageSize : ℕ) := by
    rw [Nat.cast_lt]
    exact hc
  obtain ⟨⟨⟩, s₀, h₀, h⟩ := EStateM.bind_eq_ok h
  rw [syncTlb_ok hr] at h₀
  cases h₀
  obtain ⟨_, _, hget, h⟩ := EStateM.bind_eq_ok h
  cases hget
  rw [if_neg (by simpa [AddrSpace.synced] using hmade)] at h
  obtain ⟨entry, _, hpage, h⟩ := EStateM.bind_eq_ok h
  rw [page_ok he'] at hpage
  cases hpage
  simp only [if_neg hcode, hv', hv, hp', hp, hd, Bool.not_false, Bool.not_true, Bool.and_false,
    Bool.false_eq_true, if_false, ite_self] at h
  obtain ⟨ubcMemFis, _, -, h⟩ := EStateM.bind_eq_ok h
  obtain ⟨⟨⟩, _, -, h⟩ := EStateM.bind_eq_ok h
  obtain ⟨⟨⟩, _, -, h⟩ := EStateM.bind_eq_ok h
  obtain ⟨⟨⟩, _, hswap, -⟩ := EStateM.bind_eq_ok h
  exact absurd (readSwap_nonneg hswap) (by norm_num)

theorem moveraMemoria_served (h : moveraMemoria vpn s = .ok () s')
    (hf : s.frameForPage vpn)
    (ha : ∀ e, s.space.pageTable[vpn]? = some e → e.valid = false → e.physicalPage = -1) :
    ∃ e, s.space.pageTable[vpn]? = some e ∧
      ((e.valid = true ∧ s' = s.refilled (syncEntry s.tlb vpn e)) ∨
        e.valid = false ∧ ∃ f : Fin numPhysPages, s.memoryMap.bit f = false ∧
          f.val < s.space.iptEntries ∧ s' = s.loaded vpn f) := by
  obtain ⟨hr, n, e, hn, he⟩ := moveraMemoria_page h
  have hmade := moveraMemoria_made h
  obtain rfl : vpn = n := by exact_mod_cast hn
  refine ⟨e, he, ?_⟩
  cases hv : e.valid with
  | true =>
    rw [moveraMemoria_valid hr hmade he hv] at h
    cases h
    exact .inl ⟨rfl, rfl⟩
  | false =>
    obtain ⟨-, e', he', hserve⟩ := hf
    obtain rfl : e = e' := Option.some.inj (he.symm.trans he')
    have hframe : s.hasFrame := hserve.resolve_left (by simp [hv])
    obtain ⟨f, hfind, hbit, hent⟩ := hframe.frame
    have hd := moveraMemoria_unswapped h he hv (ha e he hv)
    rw [moveraMemoria_fresh (f := f) hr hmade he hv hd hfind hent] at h
    cases h
    exact .inr ⟨rfl, f, hbit, hent, rfl⟩

theorem moveraMemoria_cases {addr : Word} (h : moveraMemoria (faultPageOf addr) s = .ok () s')
    (hf : s.frameFor addr)
    (ha : ∀ (v : ℕ) e, s.space.pageTable[v]? = some e → e.valid = false → e.physicalPage = -1) :
    ∃ (n : ℕ) (e : TranslationEntry), s.space.pageTable[n]? = some e ∧
      ((e.valid = true ∧ s' = s.refilled (syncEntry s.tlb n e)) ∨
        e.valid = false ∧ ∃ f : Fin numPhysPages, s.memoryMap.bit f = false ∧
          f.val < s.space.iptEntries ∧ s' = s.loaded n f) := by
  obtain ⟨n, hn, hpage⟩ := hf
  rw [hn] at h
  exact ⟨n, moveraMemoria_served h hpage (ha n)⟩

end Fault

/-- The TLB slots name pages of the space, and `SaveState` leaves those in memory valid. -/
def Vm.savesFrames (s : Vm) : Prop :=
  s.tlbInRange ∧ ∀ (v : ℕ) e, s.space.pageTable[v]? = some e → e.valid = true →
    0 ≤ e.physicalPage → s.tlb.savesValid v

/-- What the ownership of frames depends on: the frame, and the valid bit of a page that has one. -/
def TranslationEntry.claim (e : TranslationEntry) : ℤ × Bool :=
  (e.physicalPage, decide (e.physicalPage = -1) || e.valid)

theorem claim_eq {e e' : TranslationEntry} (h : e'.claim = e.claim) :
    e'.physicalPage = e.physicalPage ∧ (e.physicalPage ≠ -1 → e'.valid = e.valid) := by
  obtain ⟨hp, hv⟩ := Prod.mk.inj h
  refine ⟨hp, fun hne => ?_⟩
  rwa [hp, decide_eq_false hne, Bool.false_or, Bool.false_or] at hv

theorem map_claim {o o' : Option TranslationEntry}
    (h : o'.map (fun e => (e.valid, e.physicalPage)) = o.map fun e => (e.valid, e.physicalPage)) :
    o'.map TranslationEntry.claim = o.map TranslationEntry.claim := by
  have hclaim : TranslationEntry.claim =
      (fun p : Bool × ℤ => (p.2, decide (p.2 = -1) || p.1)) ∘
        fun e => (e.valid, e.physicalPage) := rfl
  rw [hclaim, ← Option.map_map, ← Option.map_map, h]

theorem saveEntry_claim {s : Vm} (h : s.savesFrames) {v : ℕ} {e : TranslationEntry}
    (he : s.space.pageTable[v]? = some e)
    (hf : e.physicalPage ≠ -1 → e.valid = true ∧ 0 ≤ e.physicalPage) :
    (saveEntry s.tlb v e).claim = e.claim := by
  unfold TranslationEntry.claim
  rw [saveEntry_physicalPage]
  by_cases hp : e.physicalPage = -1
  · simp [hp]
  · obtain ⟨hv, hpos⟩ := hf hp
    rw [(saveEntry_valid_iff hv).mpr (h.2 v e he hv hpos), hv]

namespace System

variable {s s' : System} {vm vm' : Vm}

def owns (s : System) (j v f : ℕ) : Prop :=
  ∃ e, s.entry j v = some e ∧ e.valid = true ∧ e.physicalPage = f

/-- The core map has an entry for frame `f`, which names a page of the current space that is
there. -/
def named (s : System) (f : Fin numPhysPages) : Prop :=
  ∃ (a : AddrSpace) (v : ℕ), s.spaces[s.current]? = some a ∧ f.val < a.iptEntries ∧
    a.ipt f = v ∧ s.owns s.current v f

/-- No frame has two pages, the marked frames are those that have one, and where `Find` gives no
frame the core map is right for every frame that `buscarVictima` looks at. -/
structure OwnsFrames (s : System) : Prop where
  once : ∀ f < numPhysPages, ∀ j v j' v', s.owns j v f → s.owns j' v' f → j = j' ∧ v = v'
  marked : ∀ f < numPhysPages, s.core.memoryMap.bit f = true ↔ ∃ j v, s.owns j v f
  examined : s.core.memoryMap.find.1 = -1 → ∀ f : Fin numPhysPages, 1 ≤ f.val → s.named f

/-- A fault is at a page of the space, which is in memory or gets a frame with an entry in the core
map, and `SaveState` leaves the pages in memory valid; in both the TLB names pages of the space. -/
def Event.keepsFrames (s : System) : Event → Prop
  | .create _ _ => True
  | .access acc => ∀ vm, s.vm = some vm → acc.faults vm → vm.frameFor acc.addr
  | .switch _ => ∀ vm, s.vm = some vm → vm.savesFrames

def FrameStep (s s' : System) : Prop := ∃ e : Event, e.keepsFrames s ∧ s.step e = some s'

structure Owned (s : System) : Prop where
  frame : ∀ j v e, s.entry j v = some e → e.physicalPage ≠ -1 → e.valid = true ∧
    ∃ f : Fin numPhysPages, e.physicalPage = (f.val : ℤ) ∧ s.core.memoryMap.bit f = true
  unique : ∀ j v j' v' e e', s.entry j v = some e → s.entry j' v' = some e' →
    e.physicalPage ≠ -1 → e.physicalPage = e'.physicalPage → j = j' ∧ v = v'
  marked : ∀ f < numPhysPages, s.core.memoryMap.bit f = true → ∃ j v, s.owns j v f
  first : ∀ f, s.core.memoryMap.bit f = true → f = 0
  single : ∀ (j : ℕ) (a : AddrSpace), s.spaces[j]? = some a → a.iptEntries = 1

theorem Owned.absent (hi : s.Owned) {j v : ℕ} {e : TranslationEntry}
    (he : s.entry j v = some e) (hv : e.valid = false) : e.physicalPage = -1 := by
  by_contra hp
  rw [(hi.frame j v e he hp).1] at hv
  cases hv

theorem Owned.congr (hi : s.Owned)
    (he : ∀ j v, (s'.entry j v).map TranslationEntry.claim =
      (s.entry j v).map TranslationEntry.claim)
    (hm : s'.core.memoryMap = s.core.memoryMap)
    (hc : ∀ (j : ℕ) (a' : AddrSpace), s'.spaces[j]? = some a' → a'.iptEntries = 1) :
    s'.Owned := by
  have hback : ∀ j v e', s'.entry j v = some e' → ∃ e, s.entry j v = some e ∧
      e'.claim = e.claim := by
    intro j v e' he'
    have h := he j v
    rw [he', Option.map_some] at h
    obtain ⟨e, hse, hpair⟩ := Option.map_eq_some_iff.mp h.symm
    exact ⟨e, hse, hpair.symm⟩
  refine ⟨fun j v e' he' hp => ?_, fun j v j' v' e₁ e₂ h₁ h₂ hp₁ hp => ?_, fun f hf hb => ?_,
    fun f hb => ?_, hc⟩
  · obtain ⟨e, hse, hce⟩ := hback j v e' he'
    obtain ⟨hpp, hval⟩ := claim_eq hce
    rw [hpp] at hp
    rw [hm, hpp, hval hp]
    exact hi.frame j v e hse hp
  · obtain ⟨e, hse, hce⟩ := hback j v e₁ h₁
    obtain ⟨e', hse', hce'⟩ := hback j' v' e₂ h₂
    rw [(claim_eq hce).1] at hp₁ hp
    rw [(claim_eq hce').1] at hp
    exact hi.unique j v j' v' e e' hse hse' hp₁ hp
  · rw [hm] at hb
    obtain ⟨j, v, e, hse, hv, hp⟩ := hi.marked f hf hb
    have h := he j v
    rw [hse, Option.map_some] at h
    obtain ⟨e', hse', hpair⟩ := Option.map_eq_some_iff.mp h
    obtain ⟨hpp, hval⟩ := claim_eq hpair
    exact ⟨j, v, e', hse', (hval (by omega)).trans hv, hpp.trans hp⟩
  · rw [hm] at hb
    exact hi.first f hb

theorem owned_init (h : s.Init) : s.Owned := by
  obtain ⟨hs, -, hm, -⟩ := h
  have he : ∀ j v, s.entry j v = none := by
    intro j v
    simp [entry, hs]
  refine ⟨fun j v e h => ?_, fun j v j' v' e e' h => ?_, fun f _ hb => ?_, fun f hb => ?_,
    fun j a ha => ?_⟩
  · simp [he] at h
  · simp [he] at h
  · simp [hm, BitMap.bit_empty] at hb
  · simp [hm, BitMap.bit_empty] at hb
  · simp [hs] at ha

theorem owned_create (hi : s.Owned) (noffH : NoffHeader) (ejecutable : HostFile) :
    ({ s with spaces := s.spaces ++ [AddrSpace.new noffH ejecutable] } : System).Owned := by
  have hold : ∀ j v e,
      ({ s with spaces := s.spaces ++ [AddrSpace.new noffH ejecutable] } : System).entry j v =
        some e → e.physicalPage ≠ -1 → s.entry j v = some e := by
    intro j v e he hp
    rw [entry_create] at he
    split_ifs at he with hj
    · rw [new_getElem? he] at hp
      exact absurd rfl hp
    · exact he
  refine ⟨fun j v e he hp => ?_, fun j v j' v' e e' he he' hp hpp => ?_, fun f hf hb => ?_,
    hi.first, fun j a ha => ?_⟩
  · exact hi.frame j v e (hold j v e he hp) hp
  · exact hi.unique j v j' v' e e' (hold j v e he hp) (hold j' v' e' he' (hpp ▸ hp)) hp hpp
  · obtain ⟨j, v, e, he, hv, hp⟩ := hi.marked f hf hb
    refine ⟨j, v, e, ?_, hv, hp⟩
    rw [entry_create, if_neg, he]
    rintro rfl
    simp [entry] at he
  · obtain hmem | hmem := List.mem_append.mp (List.mem_of_getElem? ha)
    · obtain ⟨k, hk⟩ := List.getElem?_of_mem hmem
      exact hi.single k a hk
    · rw [List.mem_singleton.mp hmem]
      rfl

theorem Owned.single_put (hi : s.Owned) (hvm : s.vm = some vm)
    (hc : vm'.space.iptEntries = vm.space.iptEntries) (j : ℕ) (a : AddrSpace)
    (ha : (s.put vm').spaces[j]? = some a) : a.iptEntries = 1 := by
  rw [spaces_put hvm] at ha
  split_ifs at ha
  · rw [← Option.some.inj ha, hc]
    exact hi.single s.current vm.space (vm_inv hvm).1
  · exact hi.single j a ha

/-- A step of the current space that moves no page between frames. -/
theorem owned_put (hi : s.Owned) (hvm : s.vm = some vm)
    (he : ∀ v : ℕ, (vm'.space.pageTable[v]?).map TranslationEntry.claim =
      (vm.space.pageTable[v]?).map TranslationEntry.claim)
    (hm : vm'.memoryMap = vm.memoryMap) (hc : vm'.space.iptEntries = vm.space.iptEntries) :
    (s.put vm').Owned := by
  refine hi.congr (fun j v => ?_) ?_ (hi.single_put hvm hc)
  · rw [entry_put hvm]
    split_ifs with hj
    · rw [hj, entry_current hvm, he]
    · rfl
  · rw [(vm_inv hvm).2]
    exact hm

theorem owned_loaded {n : ℕ} {e : TranslationEntry} {f : Fin numPhysPages} (hi : s.Owned)
    (hvm : s.vm = some vm) (he : vm.space.pageTable[n]? = some e) (hv : e.valid = false)
    (hf : vm.memoryMap.bit f = false) (hent : f.val < vm.space.iptEntries) :
    (s.put (vm.loaded n f)).Owned := by
  obtain ⟨hsp, hcore⟩ := vm_inv hvm
  have hlt : n < (vm.space.synced vm.tlb).pageTable.length := by
    have := (List.getElem?_eq_some_iff.mp he).1
    simpa [AddrSpace.synced] using this
  have hmap : ∀ g, (s.put (vm.loaded n f)).core.memoryMap.bit g =
      (decide (g = f.val) || s.core.memoryMap.bit g) := by
    intro g
    rw [hcore]
    exact BitMap.bit_setBit vm.memoryMap f.isLt g
  -- every entry is the new one or agrees with the one before
  have hback : ∀ j v e', (s.put (vm.loaded n f)).entry j v = some e' →
      (j = s.current ∧ v = n ∧ e'.valid = true ∧ e'.physicalPage = (f.val : ℤ)) ∨
        ¬(j = s.current ∧ v = n) ∧ ∃ e₀, s.entry j v = some e₀ ∧ e₀.valid = e'.valid ∧
          e₀.physicalPage = e'.physicalPage := by
    intro j v e' he'
    rw [entry_put hvm] at he'
    split_ifs at he' with hj
    · simp only [Vm.loaded, List.getElem?_set] at he'
      split_ifs at he' with hnv
      · cases he'
        exact .inl ⟨hj, hnv.symm, rfl, rfl⟩
      · refine .inr ⟨fun h => hnv h.2.symm, ?_⟩
        rw [synced_getElem?, Option.map_eq_some_iff] at he'
        obtain ⟨e₀, he₀, rfl⟩ := he'
        obtain ⟨hval, hpp, -⟩ := syncEntry_valid vm.tlb v e₀
        exact ⟨e₀, by rw [hj, entry_current hvm, he₀], hval.symm, hpp.symm⟩
    · exact .inr ⟨fun h => hj h.1, e', he', rfl, rfl⟩
  have hfree : ∀ j v e₀, s.entry j v = some e₀ → e₀.physicalPage ≠ (f.val : ℤ) := by
    intro j v e₀ he₀ hp₀
    obtain ⟨-, g, hg, hgb⟩ := hi.frame j v e₀ he₀ (by omega)
    have hgf : g.val = f.val := by exact_mod_cast hg.symm.trans hp₀
    rw [hgf, hcore, hf] at hgb
    cases hgb
  refine ⟨fun j v e' he' hp => ?_, fun j v j' v' e₁ e₂ h₁ h₂ hp₁ hp => ?_, fun g hg hb => ?_,
    fun g hb => ?_, hi.single_put hvm rfl⟩
  · obtain ⟨-, -, hval, hpf⟩ | ⟨-, e₀, he₀, hval, hpp⟩ := hback j v e' he'
    · exact ⟨hval, f, hpf, by rw [hmap]; simp⟩
    · obtain ⟨hval₀, g, hg, hgb⟩ := hi.frame j v e₀ he₀ (by rwa [hpp])
      exact ⟨hval.symm.trans hval₀, g, hpp.symm.trans hg, by rw [hmap, hgb]; simp⟩
  · obtain ⟨hj, hn, -, hpf⟩ | ⟨-, e₀, he₀, hval, hpp⟩ := hback j v e₁ h₁
    · obtain ⟨hj', hn', -, -⟩ | ⟨-, e₀, he₀, hval, hpp⟩ := hback j' v' e₂ h₂
      · exact ⟨hj.trans hj'.symm, hn.trans hn'.symm⟩
      · exact absurd (hpp.trans (hp.symm.trans hpf)) (hfree j' v' e₀ he₀)
    · obtain ⟨-, -, -, hpf⟩ | ⟨-, e₀', he₀', hval', hpp'⟩ := hback j' v' e₂ h₂
      · exact absurd (hpp.trans (hp.trans hpf)) (hfree j v e₀ he₀)
      · exact hi.unique j v j' v' e₀ e₀' he₀ he₀' (by rwa [hpp]) (hpp.trans (hp.trans hpp'.symm))
  · rw [hmap, Bool.or_eq_true, decide_eq_true_eq] at hb
    obtain rfl | hb := hb
    · refine ⟨s.current, n, vm.space.freshEntry n f, ?_, rfl, rfl⟩
      rw [entry_put hvm, if_pos rfl]
      exact List.getElem?_set_self hlt
    · obtain ⟨j, v, e₀, he₀, hv₀, hp₀⟩ := hi.marked g hg hb
      have hne : ¬(j = s.current ∧ v = n) := by
        rintro ⟨rfl, rfl⟩
        rw [entry_current hvm, he, Option.some.injEq] at he₀
        rw [← he₀, hv] at hv₀
        cases hv₀
      by_cases hj : j = s.current
      · have hvn : n ≠ v := fun h => hne ⟨hj, h.symm⟩
        rw [hj, entry_current hvm] at he₀
        obtain ⟨hval, hpp, -⟩ := syncEntry_valid vm.tlb v e₀
        refine ⟨j, v, syncEntry vm.tlb v e₀, ?_, hval.trans hv₀, hpp.trans hp₀⟩
        rw [entry_put hvm, if_pos hj]
        simp only [Vm.loaded]
        rw [List.getElem?_set_ne hvn, synced_getElem?, he₀, Option.map_some]
      · exact ⟨j, v, e₀, by rw [entry_put hvm, if_neg hj, he₀], hv₀, hp₀⟩
  · rw [hmap, Bool.or_eq_true, decide_eq_true_eq] at hb
    obtain rfl | hb := hb
    · rw [hi.single s.current vm.space hsp] at hent
      exact Nat.lt_one_iff.mp hent
    · exact hi.first g hb

theorem owned_access {acc : Access} (hi : s.Owned) (hvm : s.vm = some vm)
    (hf : acc.faults vm → vm.frameFor acc.addr) (h : acc.attempt vm = .ok () vm') :
    (s.put vm').Owned := by
  have habs : ∀ (v : ℕ) e, vm.space.pageTable[v]? = some e → e.valid = false →
      e.physicalPage = -1 := by
    intro v e he
    exact hi.absent (j := s.current) (v := v) (by rw [entry_current hvm, he])
  obtain ⟨i, mem, -, -, -, rfl⟩ | ⟨hfault, -, h⟩ := attempt_cases h
  · exact owned_put hi hvm (fun v => rfl) rfl rfl
  · obtain ⟨n, e, he, ⟨-, rfl⟩ | ⟨hv, f, hbit, hent, rfl⟩⟩ :=
      moveraMemoria_cases (s := { vm with lastFault := faultPageOf acc.addr }) h (hf hfault) habs
    · exact owned_put hi hvm (fun v => map_claim (synced_map vm.space vm.tlb v)) rfl rfl
    · have hl := owned_loaded hi hvm he hv hbit hent
      exact hl.congr (fun j v => rfl) rfl hl.single

theorem owned_switch {next : ℕ} (hi : s.Owned) (hk : ∀ vm, s.vm = some vm → vm.savesFrames)
    (h : s.step (.switch next) = some s') : s'.Owned := by
  obtain ⟨vm, hvm, hcore, -, hspaces, hentry⟩ := switch_inv h
  refine hi.congr (fun j v => ?_) (by rw [hcore]) fun j a' ha' => ?_
  · rw [hentry]
    split_ifs with hj
    · rw [hj, entry_current hvm, (vm_inv hvm).2]
      cases he : vm.space.pageTable[v]? with
      | none => rfl
      | some e =>
        rw [Option.map_some, Option.map_some, Option.map_some, saveEntry_claim (hk vm hvm) he]
        intro hp
        obtain ⟨hv, f, hf, -⟩ := hi.frame s.current v e (by rw [entry_current hvm, he]) hp
        exact ⟨hv, by omega⟩
    · rfl
  · obtain ⟨a, ha, hent, -⟩ := hspaces j a' ha'
    rw [hent]
    exact hi.single j a ha

theorem owned_step (hi : s.Owned) (h : FrameStep s s') : s'.Owned := by
  obtain ⟨ev, hk, hstep⟩ := h
  cases ev with
  | create noffH ejecutable =>
    obtain rfl := Option.some.inj hstep
    exact owned_create hi noffH ejecutable
  | access acc =>
    obtain ⟨vm, vm', hvm, hrun, rfl⟩ := run_inv hstep
    exact owned_access hi hvm (hk vm hvm) hrun
  | switch next => exact owned_switch hi hk hstep

theorem Owned.ownsFrames (hi : s.Owned) : s.OwnsFrames := by
  refine ⟨?_, fun f hf => ⟨hi.marked f hf, ?_⟩, fun hfull => ?_⟩
  · rintro f - j v j' v' ⟨e, he, hv, hp⟩ ⟨e', he', hv', hp'⟩
    exact hi.unique j v j' v' e e' he he' (by omega) (hp.trans hp'.symm)
  · rintro ⟨j, v, e, he, hv, hp⟩
    obtain ⟨-, g, hg, hb⟩ := hi.frame j v e he (by omega)
    have hgf : g.val = f := by exact_mod_cast hg.symm.trans hp
    rwa [hgf] at hb
  · obtain ⟨-, hall⟩ | ⟨f, -, hfind, -⟩ := s.core.memoryMap.find_cases
    · exact absurd (hi.first 1 (hall 1 (by norm_num))) (by norm_num)
    · rw [hfind] at hfull
      have := hfull
      simp at this

/-- An access that comes back meets the condition. -/
theorem keepsFrames_access {acc : Access}
    (hsingle : ∀ (j : ℕ) (a : AddrSpace), s.spaces[j]? = some a → a.iptEntries = 1)
    (h : s.step (.access acc) = some s') : (Event.access acc).keepsFrames s := by
  intro vm₀ hvm₀ hf
  obtain ⟨vm, vm', hvm, hrun, -⟩ := run_inv h
  rw [hvm₀] at hvm
  obtain rfl := Option.some.inj hvm
  obtain ⟨i, mem, hval, hvp, -⟩ | ⟨-, -, hm⟩ := attempt_cases hrun
  · exact absurd hvp (lookup_of_faults hf i hval)
  · have hone := hsingle s.current vm₀.space (vm_inv hvm₀).1
    have hframe := moveraMemoria_frameFor
      (s := { vm₀ with lastFault := faultPageOf acc.addr }) hone hm
    exact hframe

theorem Owned.keepsFrames_switch {next : ℕ} (hi : s.Owned)
    (h : s.step (.switch next) = some s') (ho : s'.OwnsFrames) :
    (Event.switch next).keepsFrames s := by
  intro vm₀ hvm₀
  refine ⟨switch_inRange h hvm₀, fun v e he hv hpos => ?_⟩
  obtain ⟨vm, hvm, hcore, -, -, hentry⟩ := switch_inv h
  rw [hvm₀] at hvm
  obtain rfl := Option.some.inj hvm
  have hse : s.entry s.current v = some e := by rw [entry_current hvm₀, he]
  obtain ⟨-, f, hf, hbit⟩ := hi.frame s.current v e hse (by omega)
  obtain ⟨j, w, e', he', hv', hp'⟩ := (ho.marked f f.isLt).mp (by rw [hcore]; exact hbit)
  have hold : ∃ e₀, s.entry j w = some e₀ ∧ e₀.physicalPage = (f.val : ℤ) ∧
      (j = s.current → e' = saveEntry s.core.tlb w e₀) := by
    rw [hentry] at he'
    split_ifs at he' with hj
    · obtain ⟨e₀, he₀, rfl⟩ := Option.map_eq_some_iff.mp he'
      rw [saveEntry_physicalPage] at hp'
      exact ⟨e₀, he₀, hp', fun _ => rfl⟩
    · exact ⟨e', he', hp', fun h => absurd h hj⟩
  obtain ⟨e₀, he₀, hp₀, hsave⟩ := hold
  obtain ⟨rfl, rfl⟩ := hi.unique j w s.current v e₀ e he₀ hse (by omega) (hp₀.trans hf.symm)
  obtain rfl : e₀ = e := Option.some.inj (he₀.symm.trans hse)
  rw [hsave rfl, saveEntry_valid_iff hv] at hv'
  rwa [(vm_inv hvm₀).2] at hv'

/-- In every run whose steps meet the condition: no frame has two pages, the marked frames are those
that have one, and no victim is looked for. A further step keeps this exactly if it meets the
condition; a fault that does not meet it never comes back. -/
theorem frames_owned (h : Reachable Init FrameStep s) :
    s.OwnsFrames ∧
    (∀ e s', s.step e = some s' → (s'.OwnsFrames ↔ e.keepsFrames s)) ∧
    ∀ acc, ¬(Event.access acc).keepsFrames s → s.step (.access acc) = none := by
  have hi : s.Owned := h.invariant (P := Owned) (fun _ => owned_init) fun _ _ => owned_step
  refine ⟨hi.ownsFrames, fun ev s' hstep => ⟨fun ho => ?_, fun hk =>
    (owned_step hi ⟨ev, hk, hstep⟩).ownsFrames⟩, fun acc hk => ?_⟩
  · cases ev with
    | create noffH ejecutable => trivial
    | access acc => exact keepsFrames_access hi.single hstep
    | switch next => exact hi.keepsFrames_switch hstep ho
  · cases hs : s.step (.access acc) with
    | none => rfl
    | some s' => exact absurd (keepsFrames_access hi.single hs) hk

instance (vm : Vm) : Decidable vm.tlbInRange := inferInstanceAs (Decidable (∀ _, _))

def Event.frameFree (s : System) : Event → Bool
  | .create _ _ => true
  | .access acc => s.vm.all fun vm => decide vm.tlbInRange &&
      decide (faultPageOf acc.addr = (acc.addr.toNat / pageSize : ℕ)) &&
        (vm.space.pageTable[acc.addr.toNat / pageSize]?).any fun e => e.valid || decide vm.hasFrame
  | .switch _ => s.vm.all fun vm => decide vm.tlbInRange &&
      decide (∀ v < vm.space.pageTable.length,
        ((vm.space.pageTable[v]?).all fun e => !e.valid) = true ∨ vm.tlb.savesValid v)

def tryFrames (s : System) (ev : Event) : Option System :=
  if ev.frameFree s then s.step ev else none

theorem keepsFrames_of_frameFree {ev : Event} (hc : ev.frameFree s = true) :
    ev.keepsFrames s := by
  cases ev with
  | create noffH ejecutable => trivial
  | access acc =>
    intro vm hvm _
    simp only [Event.frameFree, hvm, Option.all_some, Bool.and_eq_true, Bool.or_eq_true,
      decide_eq_true_eq, Option.any_eq_true] at hc
    obtain ⟨⟨hr, hp⟩, e, he, hserve⟩ := hc
    exact ⟨_, hp, hr, e, he, hserve⟩
  | switch next =>
    intro vm hvm
    simp only [Event.frameFree, hvm, Option.all_some, Bool.and_eq_true, decide_eq_true_eq] at hc
    refine ⟨hc.1, fun v e he hv _ => ?_⟩
    refine (hc.2 v (List.getElem?_eq_some_iff.mp he).1).resolve_left fun hall => ?_
    rw [he, Option.all_some, hv] at hall
    cases hall

theorem frameStep_of_tryFrames {ev : Event} (h : s.tryFrames ev = some s') : FrameStep s s' := by
  unfold tryFrames at h
  split_ifs at h with hc
  exact ⟨ev, keepsFrames_of_frameFree hc, h⟩

theorem reachable_tryFrames {evs : List Event} (h : evs.foldlM tryFrames bootSystem = some s) :
    Reachable Init FrameStep s :=
  Reachable.of_foldlM (fun s ev s' (h : s.tryFrames ev = some s') => frameStep_of_tryFrames h)
    (.init init_bootSystem) h

/-- The first program brings in its page 3, the second one runs, and then the first again. -/
def twoPrograms : List Event :=
  [.create dataProgram [], .create dataProgram []] ++ loadPages [3, 3] ++ [.switch 1, .switch 0] ++
    loadPages [3]

def inFrame (s : System) (j v f : ℕ) : Bool :=
  (s.entry j v).any fun e : TranslationEntry => e.valid && decide (e.physicalPage = (f : ℤ))

theorem owns_of_inFrame {j v f : ℕ} (h : s.inFrame j v f = true) : s.owns j v f := by
  obtain ⟨e, he, hx⟩ := (Option.any_eq_true _ _).mp h
  rw [Bool.and_eq_true, decide_eq_true_eq] at hx
  exact ⟨e, he, hx⟩

theorem twoPrograms_owned :
    ∃ s, twoPrograms.foldlM tryFrames bootSystem = some s ∧ s.owns 0 3 0 ∧ s.OwnsFrames := by
  have hrun : (twoPrograms.foldlM tryFrames bootSystem).any (fun s : System =>
      s.inFrame 0 3 0) = true := by decide +kernel
  obtain ⟨s, hs, hx⟩ := (Option.any_eq_true _ _).mp hrun
  exact ⟨s, hs, owns_of_inFrame hx, (frames_owned (reachable_tryFrames hs)).1⟩

def zeroSystem : System where
  core := bootVm.toCore
  spaces := []
  current := 0

theorem init_zeroSystem : zeroSystem.Init := ⟨rfl, rfl, rfl, rfl, rfl, fun _ => ⟨rfl, rfl⟩⟩

def clearedPage : List Event := [.create dataProgram []] ++ loadPages [0] ++ [.switch 0]

theorem frames_not_owned :
    (∃ s, Reachable Init Step s ∧ s.core.memoryMap.bit 0 = true ∧ ∀ j v, ¬s.owns j v 0) ∧
    (∃ s, Reachable Init FrameStep s ∧ s.step (.access (.load (pageAddr 1) 1)) = none) ∧
    ∃ s, (loadPages (List.range 33)).foldlM step { zeroSystem with spaces := [mappedVm.space] } =
      some s ∧ s.owns 0 1 1 ∧ s.owns 0 32 1 := by
  refine ⟨?_, ?_, ?_⟩
  · have hrun : (clearedPage.foldlM step zeroSystem).any (fun s : System =>
        s.core.memoryMap.bit 0 && decide (s.spaces.length = 1) &&
          s.spaces.all fun a => a.pageTable.all fun e => !e.valid) = true := by decide +kernel
    obtain ⟨s, hs, hx⟩ := (Option.any_eq_true _ _).mp hrun
    simp only [Bool.and_eq_true, List.all_eq_true, Bool.not_eq_true'] at hx
    refine ⟨s, Reachable.of_foldlM (fun s ev s' (h : s.step ev = some s') => ⟨ev, h⟩)
      (.init init_zeroSystem) hs, hx.1.1, ?_⟩
    rintro j v ⟨e, he, hv, -⟩
    obtain ⟨a, ha, he⟩ := Option.bind_eq_some_iff.mp he
    rw [hx.2 a (List.mem_of_getElem? ha) e (List.mem_of_getElem? he)] at hv
    cases hv
  · have hrun : (([.create dataProgram []] ++ loadPages [0] : List Event).foldlM tryFrames
        bootSystem).any
        (fun s : System => (s.step (.access (.load (pageAddr 1) 1))).isNone) = true := by
      decide +kernel
    obtain ⟨s, hs, hx⟩ := (Option.any_eq_true _ _).mp hrun
    exact ⟨s, reachable_tryFrames hs, Option.isNone_iff_eq_none.mp hx⟩
  · have hrun : ((loadPages (List.range 33)).foldlM step
        { zeroSystem with spaces := [mappedVm.space] }).any (fun s : System =>
        s.inFrame 0 1 1 && s.inFrame 0 32 1) = true := by decide +kernel
    obtain ⟨s, hs, hx⟩ := (Option.any_eq_true _ _).mp hrun
    rw [Bool.and_eq_true] at hx
    exact ⟨s, hs, owns_of_inFrame hx.1, owns_of_inFrame hx.2⟩

end System

end Nachos
