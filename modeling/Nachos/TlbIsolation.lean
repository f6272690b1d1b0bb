import Nachos.FrameOwnership

/-! Isolation of address spaces across context switches in the VM build. Within one space the TLB
only holds translations of that space, as long as no page fault needs an entry that the core map
does not have. Nothing flushes the TLB, so a switch keeps the spaces apart exactly if no entry is
valid, or if the thread that runs next has the same space and `SaveState` leaves the pages of the
valid entries valid. -/
namespace Nachos

theorem saveEntry_virtualPage (tlb : Tlb) (v : ℕ) (e : TranslationEntry) :
    (saveEntry tlb v e).virtualPage = e.virtualPage := by
  unfold saveEntry saveSlot
  split_ifs <;> rfl

theorem saveEntry_invalid {tlb : Tlb} (h : ∀ i, (tlb i).valid = false) {v : ℕ}
    {e : TranslationEntry} (he : e.valid = false) : (saveEntry tlb v e).valid = false := by
  unfold saveEntry saveSlot
  split_ifs <;> simp [h, he]

theorem saveState_getElem? {s s' : Vm} (h : saveState s = .ok () s') (v : ℕ) :
    s'.space.pageTable[v]? = (s.space.pageTable[v]?).map (saveEntry s.tlb v) := by
  obtain ⟨-, rfl⟩ := saveState_inv h
  simp [Vm.withPages]

namespace System

variable {s s' : System} {vm vm' : Vm}

def Isolated (s : System) : Prop :=
  ∀ i, (s.core.tlb i).valid = true → ∃ (v : ℕ) (e : TranslationEntry),
    (s.core.tlb i).virtualPage = v ∧ s.entry s.current v = some e ∧ e.valid = true ∧
      (s.core.tlb i).physicalPage = e.physicalPage

/-- A fault is at a page of the space, which is in memory or gets a frame with an entry in the core
map. A switch is made while no TLB entry is valid, or to the same space, when the last slot that
names the page of a valid entry is valid. In both the TLB names pages of the space. -/
def Event.keepsApart (s : System) : Event → Prop
  | .create _ _ => True
  | .access acc => (Event.access acc).keepsFrames s
  | .switch next => (∀ vm, s.vm = some vm → vm.tlbInRange) ∧
      ((∀ i, (s.core.tlb i).valid = false) ∨ next = s.current ∧
        ∀ i (v : ℕ), (s.core.tlb i).valid = true → (s.core.tlb i).virtualPage = v →
          s.core.tlb.savesValid v)

def IsolatedStep (s s' : System) : Prop := ∃ e : Event, e.keepsApart s ∧ s.step e = some s'

structure Apart (s : System) : Prop where
  isolated : s.Isolated
  self : ∀ j v e, s.entry j v = some e → e.virtualPage = v
  others : ∀ j v e, j ≠ s.current → s.entry j v = some e → e.valid = false
  unused : (∀ i, (s.core.tlb i).valid = false) → ∀ j v e, s.entry j v = some e → e.valid = false
  fresh : s.core.memoryMap.bit 0 = false → ∀ j v e, s.entry j v = some e → e.physicalPage = -1
  single : ∀ (j : ℕ) (a : AddrSpace), s.spaces[j]? = some a → a.iptEntries = 1

theorem apart_init (h : s.Init) : s.Apart := by
  obtain ⟨hs, -, -, -, -, ht⟩ := h
  have he : ∀ j v, s.entry j v = none := by
    intro j v
    simp [entry, hs]
  refine ⟨fun i hv => ?_, fun j v e h => ?_, fun j v e _ h => ?_, fun _ j v e h => ?_,
    fun _ j v e h => ?_, fun j a ha => ?_⟩
  · simp [(ht i).1] at hv
  · simp [he] at h
  · simp [he] at h
  · simp [he] at h
  · simp [he] at h
  · simp [hs] at ha

theorem apart_create (hi : s.Apart) (noffH : NoffHeader) (ejecutable : HostFile) :
    ({ s with spaces := s.spaces ++ [AddrSpace.new noffH ejecutable] } : System).Apart := by
  have hold : ∀ j v e, s.entry j v = some e → j ≠ s.spaces.length := by
    rintro j v e he rfl
    simp [entry] at he
  -- an entry is one from before or one that the constructor made
  have hback : ∀ j v e,
      ({ s with spaces := s.spaces ++ [AddrSpace.new noffH ejecutable] } : System).entry j v =
        some e → s.entry j v = some e ∨ e = ⟨v, -1, false, false, false, false⟩ := by
    intro j v e he
    rw [entry_create] at he
    split_ifs at he with hj
    · exact .inr (new_getElem? he)
    · exact .inl he
  refine ⟨fun i hv => ?_, fun j v e he => ?_, fun j v e hj he => ?_, fun ht j v e he => ?_,
    fun hb j v e he => ?_, fun j a ha => ?_⟩
  · obtain ⟨v, e, hvp, he, hval, hpp⟩ := hi.isolated i hv
    refine ⟨v, e, hvp, ?_, hval, hpp⟩
    rw [entry_create, if_neg (hold _ v e he), he]
  · obtain he | rfl := hback j v e he
    · exact hi.self j v e he
    · rfl
  · obtain he | rfl := hback j v e he
    · exact hi.others j v e hj he
    · rfl
  · obtain he | rfl := hback j v e he
    · exact hi.unused ht j v e he
    · rfl
  · obtain he | rfl := hback j v e he
    · exact hi.fresh hb j v e he
    · rfl
  · obtain hmem | hmem := List.mem_append.mp (List.mem_of_getElem? ha)
    · obtain ⟨k, hk⟩ := List.getElem?_of_mem hmem
      exact hi.single k a hk
    · rw [List.mem_singleton.mp hmem]
      rfl

theorem Apart.put (hi : s.Apart) (hvm : s.vm = some vm)
    (hiso : ∀ i, (vm'.tlb i).valid = true → ∃ (v : ℕ) (e : TranslationEntry),
      (vm'.tlb i).virtualPage = v ∧ vm'.space.pageTable[v]? = some e ∧ e.valid = true ∧
        (vm'.tlb i).physicalPage = e.physicalPage)
    (hself : ∀ (v : ℕ) e, vm'.space.pageTable[v]? = some e → e.virtualPage = v)
    (htlb : ∀ i, (vm.tlb i).valid = true → (vm'.tlb i).valid = true)
    (hunused : (∀ i, (vm'.tlb i).valid = false) → ∀ (v : ℕ) e,
      vm'.space.pageTable[v]? = some e → e.valid = false)
    (hfresh : vm'.memoryMap.bit 0 = false → vm.memoryMap.bit 0 = false ∧ ∀ (v : ℕ) e,
      vm'.space.pageTable[v]? = some e → e.physicalPage = -1)
    (hc : vm'.space.iptEntries = vm.space.iptEntries) : (s.put vm').Apart := by
  obtain ⟨hsp, hcore⟩ := vm_inv hvm
  refine ⟨fun i hv => ?_, fun j v e he => ?_, fun j v e hj he => ?_, fun ht j v e he => ?_,
    fun hb j v e he => ?_, fun j a ha => ?_⟩
  · obtain ⟨v, e, hvp, he, hval, hpp⟩ := hiso i hv
    refine ⟨v, e, hvp, ?_, hval, hpp⟩
    rw [entry_put hvm]
    exact (if_pos rfl).trans he
  · rw [entry_put hvm] at he
    split_ifs at he with hj
    · exact hself v e he
    · exact hi.self j v e he
  · change j ≠ s.current at hj
    rw [entry_put hvm, if_neg hj] at he
    exact hi.others j v e hj he
  · rw [entry_put hvm] at he
    split_ifs at he with hj
    · exact hunused ht v e he
    · refine hi.unused (fun i => ?_) j v e he
      by_contra hv
      rw [Bool.not_eq_false, hcore] at hv
      have hno : (vm'.tlb i).valid = false := ht i
      rw [htlb i hv] at hno
      cases hno
  · obtain ⟨hb₀, hall⟩ := hfresh hb
    rw [entry_put hvm] at he
    split_ifs at he with hj
    · exact hall v e he
    · exact hi.fresh (by rw [hcore]; exact hb₀) j v e he
  · rw [spaces_put hvm] at ha
    split_ifs at ha
    · rw [← Option.some.inj ha, hc]
      exact hi.single s.current vm.space hsp
    · exact hi.single j a ha

theorem Apart.current (hi : s.Apart) (hvm : s.vm = some vm) :
    (∀ i, (vm.tlb i).valid = true → ∃ (v : ℕ) (e : TranslationEntry),
      (vm.tlb i).virtualPage = v ∧ vm.space.pageTable[v]? = some e ∧ e.valid = true ∧
        (vm.tlb i).physicalPage = e.physicalPage) ∧
    (∀ (v : ℕ) e, vm.space.pageTable[v]? = some e → e.virtualPage = v) ∧
    ((∀ i, (vm.tlb i).valid = false) → ∀ (v : ℕ) e,
      vm.space.pageTable[v]? = some e → e.valid = false) ∧
    (vm.memoryMap.bit 0 = false → ∀ (v : ℕ) e,
      vm.space.pageTable[v]? = some e → e.physicalPage = -1) := by
  have hcore := (vm_inv hvm).2
  have hiso := hi.isolated
  simp only [Isolated, entry_current hvm, hcore] at hiso
  refine ⟨hiso, fun v e he => ?_, fun ht v e he => ?_, fun hb v e he => ?_⟩
  · exact hi.self s.current v e (by rw [entry_current hvm, he])
  · exact hi.unused (by rw [hcore]; exact ht) s.current v e (by rw [entry_current hvm, he])
  · exact hi.fresh (by rw [hcore]; exact hb) s.current v e (by rw [entry_current hvm, he])

theorem apart_hit {i : Fin tlbSize} {writing : Bool} {mem : Memory} (hi : s.Apart)
    (hvm : s.vm = some vm) :
    (s.put { vm with
      tlb := Function.update vm.tlb i ((vm.tlb i).touch writing), mainMemory := mem }).Apart := by
  obtain ⟨hiso, hself, hunused, hfresh⟩ := hi.current hvm
  have htlb : ∀ k, (Function.update vm.tlb i ((vm.tlb i).touch writing) k).valid =
        (vm.tlb k).valid ∧
      (Function.update vm.tlb i ((vm.tlb i).touch writing) k).virtualPage =
        (vm.tlb k).virtualPage ∧
      (Function.update vm.tlb i ((vm.tlb i).touch writing) k).physicalPage =
        (vm.tlb k).physicalPage := by
    intro k
    by_cases hk : k = i
    · rw [hk, Function.update_self]
      exact ⟨rfl, rfl, rfl⟩
    · rw [Function.update_of_ne hk]
      exact ⟨rfl, rfl, rfl⟩
  refine hi.put hvm (fun k hv => ?_) hself (fun k hv => (htlb k).1.trans hv)
    (fun ht => hunused fun k => (htlb k).1.symm.trans (ht k)) (fun hb => ⟨hb, hfresh hb⟩) rfl
  obtain ⟨v, e, hvp, hrest⟩ := hiso k ((htlb k).1.symm.trans hv)
  refine ⟨v, e, (htlb k).2.1.trans hvp, hrest.1, hrest.2.1, (htlb k).2.2.trans hrest.2.2⟩

theorem apart_refilled {n : ℕ} {e : TranslationEntry} (hi : s.Apart) (hvm : s.vm = some vm)
    (he : vm.space.pageTable[n]? = some e) (hv : e.valid = true) :
    (s.put (vm.refilled (syncEntry vm.tlb n e))).Apart := by
  obtain ⟨hiso, hself, hunused, hfresh⟩ := hi.current hvm
  have hback : ∀ (v : ℕ) e', (vm.space.synced vm.tlb).pageTable[v]? = some e' →
      ∃ e₀, vm.space.pageTable[v]? = some e₀ ∧ e' = syncEntry vm.tlb v e₀ := by
    intro v e' he'
    rw [synced_getElem?, Option.map_eq_some_iff] at he'
    obtain ⟨e₀, he₀, rfl⟩ := he'
    exact ⟨e₀, he₀, rfl⟩
  have hslot : ((vm.refilled (syncEntry vm.tlb n e)).tlb vm.iter) = syncEntry vm.tlb n e :=
    Function.update_self ..
  have hrest : ∀ k, k ≠ vm.iter → (vm.refilled (syncEntry vm.tlb n e)).tlb k = vm.tlb k :=
    fun k hk => Function.update_of_ne hk _ _
  obtain ⟨hval, hpp, -, hvp⟩ := syncEntry_valid vm.tlb n e
  refine hi.put hvm (fun k hk => ?_) (fun v e' he' => ?_) (fun k hk => ?_) (fun ht => ?_)
    (fun hb => ⟨hb, fun v e' he' => ?_⟩) rfl
  · by_cases hki : k = vm.iter
    · rw [hki, hslot]
      refine ⟨n, _, hvp.trans (hself n e he), ?_, hval.trans hv, rfl⟩
      exact (synced_getElem? _ _ _).trans (by rw [he, Option.map_some])
    · rw [hrest k hki] at hk ⊢
      obtain ⟨v, e₀, hvp₀, he₀, hval₀, hpp₀⟩ := hiso k hk
      obtain ⟨hval', hpp', -⟩ := syncEntry_valid vm.tlb v e₀
      refine ⟨v, _, hvp₀, ?_, hval'.trans hval₀, hpp₀.trans hpp'.symm⟩
      exact (synced_getElem? _ _ _).trans (by rw [he₀, Option.map_some])
  · obtain ⟨e₀, he₀, rfl⟩ := hback v e' he'
    exact (syncEntry_valid vm.tlb v e₀).2.2.2.trans (hself v e₀ he₀)
  · by_cases hki : k = vm.iter
    · rw [hki, hslot, hval, hv]
    · rw [hrest k hki, hk]
  · have hno := ht vm.iter
    rw [hslot, hval, hv] at hno
    cases hno
  · obtain ⟨e₀, he₀, rfl⟩ := hback v e' he'
    exact (syncEntry_valid vm.tlb v e₀).2.1.trans (hfresh hb v e₀ he₀)

theorem apart_loaded {n : ℕ} {e : TranslationEntry} {f : Fin numPhysPages} (hi : s.Apart)
    (hvm : s.vm = some vm) (he : vm.space.pageTable[n]? = some e) (hv : e.valid = false)
    (hf : f.val = 0) : (s.put (vm.loaded n f)).Apart := by
  obtain ⟨hiso, hself, -, -⟩ := hi.current hvm
  have hlt : n < (vm.space.synced vm.tlb).pageTable.length := by
    have := (List.getElem?_eq_some_iff.mp he).1
    simpa [AddrSpace.synced] using this
  have hslot : (vm.loaded n f).tlb vm.iter = vm.space.freshEntry n f := Function.update_self ..
  have hrest : ∀ k, k ≠ vm.iter → (vm.loaded n f).tlb k = vm.tlb k :=
    fun k hk => Function.update_of_ne hk _ _
  have hpage : (vm.loaded n f).space.pageTable[n]? = some (vm.space.freshEntry n f) :=
    List.getElem?_set_self hlt
  refine hi.put hvm (fun k hk => ?_) (fun v e' he' => ?_) (fun k hk => ?_) (fun ht => ?_)
    (fun hb => ?_) rfl
  · by_cases hki : k = vm.iter
    · rw [hki, hslot]
      exact ⟨n, _, rfl, hpage, rfl, rfl⟩
    · rw [hrest k hki] at hk ⊢
      obtain ⟨v, e₀, hvp₀, he₀, hval₀, hpp₀⟩ := hiso k hk
      have hne : n ≠ v := by
        rintro rfl
        rw [he, Option.some.injEq] at he₀
        rw [← he₀, hv] at hval₀
        cases hval₀
      obtain ⟨hval', hpp', -⟩ := syncEntry_valid vm.tlb v e₀
      refine ⟨v, syncEntry vm.tlb v e₀, hvp₀, ?_, hval'.trans hval₀, hpp₀.trans hpp'.symm⟩
      simp only [Vm.loaded]
      rw [List.getElem?_set_ne hne, synced_getElem?, he₀, Option.map_some]
  · by_cases hvn : n = v
    · subst hvn
      rw [hpage, Option.some.injEq] at he'
      rw [← he']
      rfl
    · simp only [Vm.loaded] at he'
      rw [List.getElem?_set_ne hvn, synced_getElem?, Option.map_eq_some_iff] at he'
      obtain ⟨e₀, he₀, rfl⟩ := he'
      exact (syncEntry_valid vm.tlb v e₀).2.2.2.trans (hself v e₀ he₀)
  · by_cases hki : k = vm.iter
    · rw [hki, hslot]
      rfl
    · rw [hrest k hki, hk]
  · have hno := ht vm.iter
    rw [hslot] at hno
    cases hno
  · have hset : (vm.memoryMap.setBit f).bit 0 = false := hb
    rw [BitMap.bit_setBit _ f.isLt, hf] at hset
    cases hset

theorem apart_access {acc : Access} (hi : s.Apart) (hvm : s.vm = some vm)
    (h : acc.attempt vm = .ok () vm') : (s.put vm').Apart := by
  obtain ⟨-, -, -, hfresh⟩ := hi.current hvm
  obtain ⟨i, mem, -, -, -, rfl⟩ | ⟨-, -, h⟩ := attempt_cases h
  · exact apart_hit hi hvm
  obtain ⟨hr, n, e, hn, he⟩ := moveraMemoria_page h
  rw [hn] at h
  have hone : vm.space.iptEntries = 1 := hi.single s.current vm.space (vm_inv hvm).1
  have hi₁ : Apart { s with core := { s.core with lastFault := (n : ℤ) } } :=
    ⟨hi.isolated, hi.self, hi.others, hi.unused, hi.fresh, hi.single⟩
  have hframe : ∀ e', vm.space.pageTable[n]? = some e' → e'.valid = false → vm.hasFrame :=
    fun e' he' hv => moveraMemoria_hasFrame (s := { vm with lastFault := (n : ℤ) }) hone h he' hv
  have habs : ∀ e', vm.space.pageTable[n]? = some e' → e'.valid = false →
      e'.physicalPage = -1 := by
    intro e' he' hv
    obtain ⟨f, -, hbit, hent⟩ := (hframe e' he' hv).frame
    rw [hone, Nat.lt_one_iff] at hent
    exact hfresh (by rw [← hent]; exact hbit) n e' he'
  have hserve : vm.frameForPage n := by
    refine ⟨hr, e, he, ?_⟩
    cases hv : e.valid with
    | true => exact .inl rfl
    | false => exact .inr (hframe e he hv)
  obtain ⟨e', he', ⟨hv, rfl⟩ | ⟨hv, f, -, hent, rfl⟩⟩ :=
    moveraMemoria_served (s := { vm with lastFault := (n : ℤ) }) h hserve habs
  · have hput := apart_refilled hi₁ (vm_lastFault hvm n) he' hv
    exact hput
  · change f.val < vm.space.iptEntries at hent
    rw [hone, Nat.lt_one_iff] at hent
    have hput := apart_loaded hi₁ (vm_lastFault hvm n) he' hv hent
    exact hput

/-- A switch: the old space goes through `SaveState`, the TLB and the other spaces stay. -/
theorem apart_switch {next : ℕ} (hi : s.Apart) (hk : (Event.switch next).keepsApart s)
    (h : s.step (.switch next) = some s') : s'.Apart := by
  obtain ⟨vm, hvm, hcore, hcur, hspaces, hentry⟩ := switch_inv h
  have hback : ∀ j v e', s'.entry j v = some e' → ∃ e, s.entry j v = some e ∧
      e'.virtualPage = e.virtualPage ∧ e'.physicalPage = e.physicalPage ∧
      ((∀ i, (s.core.tlb i).valid = false) → e.valid = false → e'.valid = false) := by
    intro j v e' he'
    rw [hentry] at he'
    split_ifs at he'
    · obtain ⟨e, he, rfl⟩ := Option.map_eq_some_iff.mp he'
      exact ⟨e, he, saveEntry_virtualPage _ _ _, saveEntry_physicalPage _ _ _,
        fun ht => saveEntry_invalid ht⟩
    · exact ⟨e', he', rfl, rfl, fun _ h => h⟩
  refine ⟨fun i hv => ?_, fun j v e' he' => ?_, fun j v e' hj he' => ?_, fun ht j v e' he' => ?_,
    fun hb j v e' he' => ?_, fun j a' ha' => ?_⟩
  · rw [hcore] at hv ⊢
    obtain hnone | ⟨hsame, hsaves⟩ := hk.2
    · rw [hnone i] at hv
      cases hv
    · obtain ⟨v, e, hvp, he, hval, hpp⟩ := hi.isolated i hv
      refine ⟨v, saveEntry s.core.tlb v e, hvp, ?_, ?_, ?_⟩
      · rw [hcur, hsame, hentry, if_pos rfl, he, Option.map_some]
      · exact (saveEntry_valid_iff hval).mpr (hsaves i v hv hvp)
      · rw [saveEntry_physicalPage, hpp]
  · obtain ⟨e, he, hvp, -⟩ := hback j v e' he'
    rw [hvp]
    exact hi.self j v e he
  · obtain hnone | ⟨hsame, -⟩ := hk.2
    · obtain ⟨e, he, -, -, hinv⟩ := hback j v e' he'
      exact hinv hnone (hi.unused hnone j v e he)
    · rw [hcur, hsame] at hj
      rw [hentry, if_neg hj] at he'
      exact hi.others j v e' hj he'
  · rw [hcore] at ht
    obtain ⟨e, he, -, -, hinv⟩ := hback j v e' he'
    exact hinv ht (hi.unused ht j v e he)
  · rw [hcore] at hb
    obtain ⟨e, he, -, hpp, -⟩ := hback j v e' he'
    rw [hpp]
    exact hi.fresh hb j v e he
  · obtain ⟨a, ha, hent, -⟩ := hspaces j a' ha'
    rw [hent]
    exact hi.single j a ha

theorem apart_step (hi : s.Apart) (h : IsolatedStep s s') : s'.Apart := by
  obtain ⟨ev, hk, hstep⟩ := h
  cases ev with
  | create noffH ejecutable =>
    obtain rfl := Option.some.inj hstep
    exact apart_create hi noffH ejecutable
  | access acc =>
    obtain ⟨vm, vm', hvm, hrun, rfl⟩ := run_inv hstep
    exact apart_access hi hvm hrun
  | switch next => exact apart_switch hi hk hstep

theorem Apart.keepsApart {next : ℕ} (hi : s.Apart) (h : s.step (.switch next) = some s')
    (hiso : s'.Isolated) : (Event.switch next).keepsApart s := by
  obtain ⟨vm, hvm, hcore, hcur, -, hentry⟩ := switch_inv h
  rw [Isolated, hcore, hcur] at hiso
  have hr : ∀ vm, s.vm = some vm → vm.tlbInRange := fun _ hvm => switch_inRange h hvm
  by_cases hnone : ∀ i, (s.core.tlb i).valid = false
  · exact ⟨hr, .inl hnone⟩
  have hsame : next = s.current := by
    by_contra hne
    refine hnone fun i => ?_
    by_contra hv
    obtain ⟨v, e, -, he, hval, -⟩ := hiso i (by simpa using hv)
    rw [hentry, if_neg hne] at he
    rw [hi.others next v e hne he] at hval
    cases hval
  refine ⟨hr, .inr ⟨hsame, fun i v hv hvp => ?_⟩⟩
  obtain ⟨w, e', hwp, he', hval', -⟩ := hiso i hv
  obtain rfl : v = w := by exact_mod_cast hvp.symm.trans hwp
  obtain ⟨w, e, hwp', he, hval, -⟩ := hi.isolated i hv
  obtain rfl : v = w := by exact_mod_cast hvp.symm.trans hwp'
  rw [hentry, if_pos hsame, hsame, he, Option.map_some, Option.some.injEq] at he'
  rw [← he'] at hval'
  exact (saveEntry_valid_iff hval).mp hval'

/-- What `SaveState` changes in an entry comes from a TLB slot of the same page, which is not a
valid translation of another space. -/
def SavesOwn (s : System) : Prop :=
  ∀ vm vm', s.vm = some vm → saveState vm = .ok () vm' → ∀ (v : ℕ) e e',
    vm.space.pageTable[v]? = some e → vm'.space.pageTable[v]? = some e' → e' ≠ e →
    ∃ i, (vm.tlb i).virtualPage = v ∧
      e' = { e with dirty := (vm.tlb i).dirty, valid := (vm.tlb i).valid } ∧
      ((vm.tlb i).valid = true → e.valid = true ∧ (vm.tlb i).physicalPage = e.physicalPage)

theorem Apart.savesOwn (hi : s.Apart) : s.SavesOwn := by
  intro vm vm' hvm hsave v e e' he he' hne
  obtain ⟨hiso, -⟩ := hi.current hvm
  rw [saveState_getElem? hsave, he, Option.map_some, Option.some.injEq] at he'
  obtain ⟨-, hsame⟩ | ⟨i, hvp, -, hbits⟩ := saveEntry_cases vm.tlb v e
  · exact absurd (he'.symm.trans hsame) hne
  · refine ⟨i, hvp, he'.symm.trans hbits, fun hv => ?_⟩
    obtain ⟨w, e₀, hwp, he₀, hval, hpp⟩ := hiso i hv
    obtain rfl : v = w := by exact_mod_cast hvp.symm.trans hwp
    obtain rfl : e = e₀ := Option.some.inj (he.symm.trans he₀)
    exact ⟨hval, hpp⟩

/-- In every run whose steps meet the condition, the TLB only holds translations of the current
space, none of them leads to a frame of another space, and `SaveState` changes no bits because of
an entry of another space. A further step keeps this exactly if it meets the condition; a fault
that does not meet it never comes back. -/
theorem tlb_isolated (h : Reachable Init IsolatedStep s) :
    s.Isolated ∧
    (∀ i, (s.core.tlb i).valid = true → ∀ j v e, j ≠ s.current → s.entry j v = some e →
      e.valid = true → e.physicalPage ≠ (s.core.tlb i).physicalPage) ∧
    s.SavesOwn ∧
    (∀ e s', s.step e = some s' → (s'.Isolated ↔ e.keepsApart s)) ∧
    ∀ acc, ¬(Event.access acc).keepsApart s → s.step (.access acc) = none := by
  have hi : s.Apart := h.invariant (P := Apart) (fun _ => apart_init) fun _ _ => apart_step
  refine ⟨hi.isolated, fun i _ j v e hj he hv => ?_, hi.savesOwn, fun ev s' hstep =>
    ⟨fun hiso => ?_, fun hk => (apart_step hi ⟨ev, hk, hstep⟩).isolated⟩, fun acc hk => ?_⟩
  · rw [hi.others j v e hj he] at hv
    cases hv
  · cases ev with
    | create noffH ejecutable => trivial
    | access acc => exact keepsFrames_access hi.single hstep
    | switch next => exact hi.keepsApart hstep hiso
  · cases hs : s.step (.access acc) with
    | none => rfl
    | some s' => exact absurd (keepsFrames_access hi.single hs) hk

/-- The first program does not touch memory; the second one loads and stores, another thread runs
for a while, and it goes on. -/
def lateStart : List Event :=
  [.create dataProgram [], .create dataProgram [], .switch 1] ++ loadPages [0, 0] ++
    [.switch 1, .access (.store (pageAddr 0) 1 0xaa)]

def Event.apart (s : System) : Event → Bool
  | .create _ _ => true
  | .access acc => (Event.access acc).frameFree s
  | .switch next => (s.vm.all fun vm => decide vm.tlbInRange) &&
      (decide (∀ i, (s.core.tlb i).valid = false) || (decide (next = s.current) &&
        decide (∀ i, (s.core.tlb i).valid = true →
          s.core.tlb.savesValid (s.core.tlb i).virtualPage.toNat)))

def tryApart (s : System) (ev : Event) : Option System :=
  if ev.apart s then s.step ev else none

theorem isolatedStep_of_tryApart {ev : Event} (h : s.tryApart ev = some s') :
    IsolatedStep s s' := by
  unfold tryApart at h
  split_ifs at h with hc
  refine ⟨ev, ?_, h⟩
  cases ev with
  | create noffH ejecutable => trivial
  | access acc =>
    have hfree : (Event.access acc).frameFree s = true := hc
    exact keepsFrames_of_frameFree hfree
  | switch next =>
    simp only [Event.apart, Bool.or_eq_true, Bool.and_eq_true, decide_eq_true_eq] at hc
    refine ⟨fun vm hvm => ?_, hc.2.imp_right fun hsame => ⟨hsame.1, fun i v hv hvp => ?_⟩⟩
    · simpa [hvm] using hc.1
    · have hsaves := hsame.2 i hv
      rwa [hvp, Int.toNat_natCast] at hsaves

theorem reachable_tryApart {evs : List Event} (h : evs.foldlM tryApart bootSystem = some s) :
    Reachable Init IsolatedStep s :=
  Reachable.of_foldlM (fun s ev s' (h : s.tryApart ev = some s') => isolatedStep_of_tryApart h)
    (.init init_bootSystem) h

theorem lateStart_isolated :
    ∃ s, lateStart.foldlM tryApart bootSystem = some s ∧ (s.core.tlb 0).valid = true ∧
      s.Isolated := by
  have hrun : (lateStart.foldlM tryApart bootSystem).any (fun s : System =>
      (s.core.tlb 0).valid) = true := by decide +kernel
  obtain ⟨s, hs, hx⟩ := (Option.any_eq_true _ _).mp hrun
  exact ⟨s, hs, hx, (tlb_isolated (reachable_tryApart hs)).1⟩

def staleEntry : List Event :=
  [.create dataProgram [], .create dataProgram []] ++ loadPages [0] ++ [.switch 1]

theorem staleEntry_not_isolated : ∃ s, Reachable Init Step s ∧ ¬s.Isolated := by
  have hrun : (staleEntry.foldlM step bootSystem).any (fun s : System =>
      (s.core.tlb 0).valid && decide ((s.core.tlb 0).virtualPage = 0) &&
      (s.entry s.current 0).all fun e : TranslationEntry => !e.valid) = true := by decide +kernel
  obtain ⟨s, hs, hx⟩ := (Option.any_eq_true _ _).mp hrun
  simp only [Bool.and_eq_true, decide_eq_true_eq] at hx
  obtain ⟨⟨hv, hp⟩, he⟩ := hx
  refine ⟨s, reachable_step hs, fun hiso => ?_⟩
  obtain ⟨v, e, hvp, hentry, hval, -⟩ := hiso 0 hv
  obtain rfl : v = 0 := by exact_mod_cast hvp.symm.trans hp
  rw [hentry] at he
  simp [hval] at he

end System

end Nachos
