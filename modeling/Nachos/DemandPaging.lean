import Nachos.FaultService
import Nachos.Reachability

/-! Demand paging of one address space as seen by its loads and stores. As long as every
page that is not in memory gets a frame with an entry in the core map, the TLB, the page
table and the frames together behave as one array of bytes. -/
namespace Nachos

abbrev Flat := ℕ → Byte

/-- The bytes a program finds when it has stored nothing. -/
def AddrSpace.image (a : AddrSpace) : Flat := fun x =>
  ((a.pageBytes (x / pageSize))[x % pageSize]?).getD 0

inductive Access where
  | load (addr : Word) (size : ℕ)
  | store (addr : Word) (size : ℕ) (value : Word)

namespace Access

def addr : Access → Word
  | .load a _ | .store a _ _ => a

def size : Access → ℕ
  | .load _ n | .store _ n _ => n

def run : Access → Kernel (Option Word)
  | .load a n => do return some (← userLoad a n)
  | .store a n v => do
    userStore a n v
    return none

def flat (m : Flat) : Access → Flat
  | .load _ _ => m
  | .store a n v => fun x =>
    if a.toNat ≤ x ∧ x < a.toNat + n then v.extractLsb' (8 * (x - a.toNat)) 8 else m x

/-- What the access returns on the array `m`: for a load, a word with the bytes there. -/
def returns (m : Flat) : Access → Option Word → Prop
  | .load a n, r => ∃ v, r = some v ∧ ∀ j < n, v.extractLsb' (8 * j) 8 = m (a.toNat + j)
  | .store _ _ _, r => r = none

def legal (acc : Access) (s : Vm) : Prop :=
  (acc.size = 1 ∨ acc.size = 2 ∨ acc.size = 4) ∧ misaligned acc.addr acc.size = false ∧
    s.space.codePages ≤ acc.addr.toNat / pageSize ∧
    acc.addr.toNat / pageSize < s.space.pageTable.length

instance (acc : Access) (s : Vm) : Decidable (acc.legal s) := inferInstanceAs (Decidable (_ ∧ _))

/-- The page of the access is in memory, or gets a frame that has an entry in the core map. -/
def framed (acc : Access) (s : Vm) : Prop :=
  (∃ e, s.space.pageTable[acc.addr.toNat / pageSize]? = some e ∧ e.valid = true) ∨ s.hasFrame

end Access

def Vm.freeZero (s : Vm) : Prop :=
  ∀ f < numPhysPages, s.memoryMap.bit f = false →
    ∀ j < pageSize, s.mainMemory (f * pageSize + j) = 0

/-- The machine and the kernel when the program starts: the constructor of `Machine` clears the
memory and leaves only the valid and dirty bits of the TLB defined. -/
def Boot (s : Vm × Flat) : Prop :=
  (∃ noffH ejecutable, s.1.space = AddrSpace.new noffH ejecutable) ∧ s.1.tlbInRange ∧
    (∀ i, (s.1.tlb i).valid = false ∧ (s.1.tlb i).dirty = false) ∧ s.1.lastFault = -1 ∧
    s.1.mainMemory = (fun _ => 0) ∧ s.2 = s.1.space.image

def PagedStep (s s' : Vm × Flat) : Prop :=
  ∃ acc : Access, acc.legal s.1 ∧ acc.framed s.1 ∧ (∃ r, acc.run s.1 = .ok r s'.1) ∧
    s'.2 = acc.flat s.2

/-- Each valid page has a frame of its own, and the TLB agrees with the page table. -/
structure Resident (s : Vm) : Prop where
  range : s.tlbInRange
  size : s.space.pageTable.length * pageSize ≤ 2 ^ 31
  self : ∀ (v : ℕ) e, s.space.pageTable[v]? = some e → e.virtualPage = v
  clean : ∀ (v : ℕ) e, s.space.pageTable[v]? = some e → e.valid = false → e.dirty = false
  frame : ∀ (v : ℕ) e, s.space.pageTable[v]? = some e → e.valid = true →
    ∃ f : Fin numPhysPages, e.physicalPage = (f.val : ℤ) ∧ s.memoryMap.bit f = true
  inj : ∀ (v v' : ℕ) e e', s.space.pageTable[v]? = some e → s.space.pageTable[v']? = some e' →
    e.valid = true → e'.valid = true → e.physicalPage = e'.physicalPage → v = v'
  code : ∀ (v : ℕ) e, s.space.pageTable[v]? = some e → e.valid = true →
    e.readOnly = decide (v < s.space.codePages)
  hit : ∀ i, (s.tlb i).valid = true → ∃ (v : ℕ) (e : TranslationEntry),
    s.space.pageTable[v]? = some e ∧ e.valid = true ∧ (s.tlb i).virtualPage = v ∧
      (s.tlb i).physicalPage = e.physicalPage ∧ (s.tlb i).readOnly = e.readOnly
  miss : ∀ i, (s.tlb i).valid = false → (s.tlb i).dirty = false

def Holds (s : Vm) (m : Flat) : Prop :=
  ∀ (a : ℕ) (e : TranslationEntry), s.space.pageTable[a / pageSize]? = some e →
    (e.valid = false → m a = s.space.image a) ∧
      ∀ f : Fin numPhysPages, e.valid = true → e.physicalPage = (f.val : ℤ) →
        s.mainMemory (f * pageSize + a % pageSize) = m a

/-- The page of the last fault is still in the TLB. -/
def LastCached (s : Vm) : Prop :=
  ∀ v : ℕ, s.lastFault = v → ∃ i, (s.tlb i).valid = true ∧ (s.tlb i).virtualPage = v

variable {s : Vm} {m : Flat}

theorem NoffHeader.stack_le_numPages (h : NoffHeader) :
    userStackSize / pageSize ≤ h.numPages :=
  calc userStackSize / pageSize
      ≤ (h.code.size + h.initData.size + h.uninitData.size + userStackSize) / pageSize :=
        Nat.div_le_div_right (Nat.le_add_left _ _)
    _ ≤ h.numPages := Nat.le_add_right _ _

theorem numPages_mul_le (h : NoffHeader) : h.numPages * pageSize ≤ 2 ^ 31 := by
  have hs := h.size_lt
  unfold NoffHeader.numPages divRoundUp
  simp only [pageSize, userStackSize] at hs ⊢
  generalize h.code.size + h.initData.size + h.uninitData.size = n at hs ⊢
  split_ifs <;> omega

theorem new_getElem? {noffH : NoffHeader} {ejecutable : HostFile} {v : ℕ} {e : TranslationEntry}
    (h : (AddrSpace.new noffH ejecutable).pageTable[v]? = some e) :
    e = ⟨v, -1, false, false, false, false⟩ := by
  simp only [AddrSpace.new, List.getElem?_map, Option.map_eq_some_iff] at h
  obtain ⟨i, hi, rfl⟩ := h
  rw [List.getElem?_eq_some_iff] at hi
  obtain ⟨hlt, rfl⟩ := hi
  simp

theorem resident_boot (h : Boot (s, m)) : Resident s ∧ LastCached s ∧ Holds s m := by
  obtain ⟨⟨noffH, exe, hsp⟩, hr, ht, hl, -, hm⟩ := h
  dsimp only at hsp ht hl hm
  have hpt : ∀ (v : ℕ) e, s.space.pageTable[v]? = some e →
      e = ⟨v, -1, false, false, false, false⟩ := by
    intro v e he
    rw [hsp] at he
    exact new_getElem? he
  have hinv : ∀ (v : ℕ) e, s.space.pageTable[v]? = some e → e.valid ≠ true := by
    intro v e he
    rw [hpt v e he]
    simp
  have hlen : s.space.pageTable.length = noffH.numPages := by simp [hsp, AddrSpace.new]
  refine ⟨⟨hr, ?_, fun v e he => ?_, fun v e he _ => ?_, fun v e he hv => absurd hv (hinv v e he),
    fun v v' e e' he _ hv => absurd hv (hinv v e he), fun v e he hv => absurd hv (hinv v e he),
    fun i hi => ?_, fun i _ => (ht i).2⟩, fun v hv => ?_, fun a e he => ?_⟩
  · rw [hlen]
    exact numPages_mul_le noffH
  · rw [hpt v e he]
  · rw [hpt v e he]
  · rw [(ht i).1] at hi
    cases hi
  · rw [hl] at hv
    omega
  · exact ⟨fun _ => by rw [hm], fun f hv => absurd hv (hinv _ e he)⟩

/-! ### The fault handler keeps the frames apart. -/

theorem syncEntry_dirty (tlb : Tlb) (v : ℕ) (e : TranslationEntry) :
    (syncEntry tlb v e).dirty = e.dirty ∨
      ∃ i, (tlb i).virtualPage = v ∧ (syncEntry tlb v e).dirty = (tlb i).dirty := by
  unfold syncEntry syncSlot
  split_ifs with h3 h2 h1 h0
  all_goals first
    | exact .inr ⟨_, ‹_›, rfl⟩
    | exact .inl rfl

theorem Resident.synced_clean (hi : Resident s) {v : ℕ} {e : TranslationEntry}
    (he : s.space.pageTable[v]? = some e) (hv : e.valid = false) :
    (syncEntry s.tlb v e).dirty = false := by
  obtain hd | ⟨i, hvp, hd⟩ := syncEntry_dirty s.tlb v e
  · rw [hd]
    exact hi.clean v e he hv
  · rw [hd]
    cases hval : (s.tlb i).valid with
    | false => exact hi.miss i hval
    | true =>
      obtain ⟨v', e', he', hv', hvp', -⟩ := hi.hit i hval
      have hvv : v' = v := by
        rw [hvp] at hvp'
        exact_mod_cast hvp'.symm
      rw [hvv, he, Option.some.injEq] at he'
      rw [← he', hv] at hv'
      cases hv'

theorem Resident.congr {s' : Vm} (hi : Resident s) (ht : s'.tlb = s.tlb)
    (hp : s'.space.pageTable = s.space.pageTable) (hn : s'.space.noffH1 = s.space.noffH1)
    (hm : s'.memoryMap = s.memoryMap) : Resident s' := by
  have hc : s'.space.codePages = s.space.codePages := by simp only [AddrSpace.codePages, hn]
  obtain ⟨h1, h2, h3, h4, h5, h6, h7, h8, h9⟩ := hi
  refine ⟨?_, ?_, ?_, ?_, ?_, ?_, ?_, ?_, ?_⟩ <;>
    simp only [Vm.tlbInRange, ht, hp, hm, hc] at * <;> assumption

theorem Resident.sync (hi : Resident s) :
    Resident { s with space := s.space.synced s.tlb } := by
  have hback : ∀ (v : ℕ) e', (s.space.synced s.tlb).pageTable[v]? = some e' →
      ∃ e, s.space.pageTable[v]? = some e ∧ e' = syncEntry s.tlb v e := by
    intro v e' he'
    rw [synced_getElem?, Option.map_eq_some_iff] at he'
    obtain ⟨e, he, rfl⟩ := he'
    exact ⟨e, he, rfl⟩
  have hlen : (s.space.synced s.tlb).pageTable.length = s.space.pageTable.length := by
    simp [AddrSpace.synced]
  refine ⟨fun i => ?_, ?_, fun v e' he' => ?_, fun v e' he' hv => ?_, fun v e' he' hv => ?_,
    fun v₁ v₂ e₁ e₂ he₁ he₂ hv₁ hv₂ hp => ?_, fun v e' he' hv => ?_, fun i hv => ?_, hi.miss⟩
  · dsimp only
    rw [hlen]
    exact hi.range i
  · dsimp only
    rw [hlen]
    exact hi.size
  · obtain ⟨e, he, rfl⟩ := hback v e' he'
    rw [(syncEntry_valid _ _ _).2.2.2]
    exact hi.self v e he
  · obtain ⟨e, he, rfl⟩ := hback v e' he'
    rw [(syncEntry_valid _ _ _).1] at hv
    exact hi.synced_clean he hv
  · obtain ⟨e, he, rfl⟩ := hback v e' he'
    rw [(syncEntry_valid _ _ _).1] at hv
    rw [(syncEntry_valid _ _ _).2.1]
    exact hi.frame v e he hv
  · obtain ⟨e, he, rfl⟩ := hback v₁ e₁ he₁
    obtain ⟨e', he', rfl⟩ := hback v₂ e₂ he₂
    rw [(syncEntry_valid _ _ _).1] at hv₁ hv₂
    rw [(syncEntry_valid _ _ _).2.1, (syncEntry_valid _ _ _).2.1] at hp
    exact hi.inj v₁ v₂ e e' he he' hv₁ hv₂ hp
  · obtain ⟨e, he, rfl⟩ := hback v e' he'
    rw [(syncEntry_valid _ _ _).1] at hv
    rw [(syncEntry_valid _ _ _).2.2.1]
    exact hi.code v e he hv
  · obtain ⟨v, e, he, hval, hvp, hpp, hro⟩ := hi.hit i hv
    refine ⟨v, syncEntry s.tlb v e, ?_, ?_, hvp, ?_, ?_⟩
    · rw [synced_getElem?, he, Option.map_some]
    · rw [(syncEntry_valid _ _ _).1, hval]
    · rw [(syncEntry_valid _ _ _).2.1, hpp]
    · rw [(syncEntry_valid _ _ _).2.2.1, hro]

theorem Resident.setSlot (hi : Resident s) {v : ℕ} {e : TranslationEntry} (k : Fin tlbSize)
    (he : s.space.pageTable[v]? = some e) (hv : e.valid = true) :
    Resident { s with tlb := Function.update s.tlb k e } := by
  have hself := hi.self v e he
  have hlt := (List.getElem?_eq_some_iff.mp he).1
  refine ⟨fun i => ?_, hi.size, hi.self, hi.clean, hi.frame, hi.inj, hi.code, fun i hval => ?_,
    fun i hval => ?_⟩
  · by_cases hik : i = k
    · subst hik
      simp only [Function.update_self, hself]
      omega
    · simp only [Function.update_of_ne hik]
      exact hi.range i
  · by_cases hik : i = k
    · subst hik
      simp only [Function.update_self]
      exact ⟨v, e, he, hv, hself, rfl, rfl⟩
    · simp only [Function.update_of_ne hik] at hval ⊢
      exact hi.hit i hval
  · by_cases hik : i = k
    · subst hik
      simp only [Function.update_self, hv] at hval
      cases hval
    · simp only [Function.update_of_ne hik] at hval ⊢
      exact hi.miss i hval

theorem Resident.install (hi : Resident s) {v : ℕ} {e : TranslationEntry} {f : Fin numPhysPages}
    (he : s.space.pageTable[v]? = some e) (hv : e.valid = false)
    (hf : s.memoryMap.bit f = false) :
    Resident { s with
      space := { s.space with
        pageTable := s.space.pageTable.set v (s.space.freshEntry v f) }
      memoryMap := s.memoryMap.setBit f } := by
  have hlt := (List.getElem?_eq_some_iff.mp he).1
  have hget : ∀ (w : ℕ) e', (s.space.pageTable.set v (s.space.freshEntry v f))[w]? = some e' →
      (w = v ∧ e' = s.space.freshEntry v f) ∨ (w ≠ v ∧ s.space.pageTable[w]? = some e') := by
    intro w e' hw
    by_cases hwv : w = v
    · subst hwv
      rw [List.getElem?_set_self hlt] at hw
      exact .inl ⟨rfl, (Option.some.inj hw).symm⟩
    · rw [List.getElem?_set_ne (Ne.symm hwv)] at hw
      exact .inr ⟨hwv, hw⟩
  have hbit : ∀ k, s.memoryMap.bit k = true → (s.memoryMap.setBit f).bit k = true := by
    intro k hk
    rw [BitMap.bit_setBit _ f.isLt, hk, Bool.or_true]
  have hother : ∀ (w : ℕ) e', s.space.pageTable[w]? = some e' → e'.valid = true →
      e'.physicalPage ≠ (f.val : ℤ) := by
    intro w e' hw hval hp
    obtain ⟨g, hg, hb⟩ := hi.frame w e' hw hval
    have hgf : g.val = f.val := by
      rw [hp] at hg
      exact_mod_cast hg.symm
    rw [hgf, hf] at hb
    cases hb
  refine ⟨fun i => ?_, ?_, fun w e' hw => ?_, fun w e' hw hval => ?_, fun w e' hw hval => ?_,
    fun w₁ w₂ e₁ e₂ hw₁ hw₂ hv₁ hv₂ hp => ?_, fun w e' hw hval => ?_, fun i hval => ?_, hi.miss⟩
  · simp only [List.length_set]
    exact hi.range i
  · simp only [List.length_set]
    exact hi.size
  · obtain ⟨rfl, rfl⟩ | ⟨-, hw⟩ := hget w e' hw
    · rfl
    · exact hi.self w e' hw
  · obtain ⟨rfl, rfl⟩ | ⟨-, hw⟩ := hget w e' hw
    · cases hval
    · exact hi.clean w e' hw hval
  · obtain ⟨rfl, rfl⟩ | ⟨-, hw⟩ := hget w e' hw
    · refine ⟨f, rfl, ?_⟩
      simp [BitMap.bit_setBit _ f.isLt]
    · obtain ⟨g, hg, hb⟩ := hi.frame w e' hw hval
      exact ⟨g, hg, hbit g hb⟩
  · obtain ⟨h₁, he₁⟩ | ⟨-, h₁⟩ := hget w₁ e₁ hw₁ <;> obtain ⟨h₂, he₂⟩ | ⟨-, h₂⟩ := hget w₂ e₂ hw₂
    · rw [h₁, h₂]
    · exact absurd (hp.symm.trans (by rw [he₁]; rfl)) (hother w₂ e₂ h₂ hv₂)
    · exact absurd (hp.trans (by rw [he₂]; rfl)) (hother w₁ e₁ h₁ hv₁)
    · exact hi.inj w₁ w₂ e₁ e₂ h₁ h₂ hv₁ hv₂ hp
  · obtain ⟨rfl, rfl⟩ | ⟨-, hw⟩ := hget w e' hw
    · rfl
    · exact hi.code w e' hw hval
  · obtain ⟨w, e', hw, hval', hvp, hpp, hro⟩ := hi.hit i hval
    refine ⟨w, e', ?_, hval', hvp, hpp, hro⟩
    have hwv : v ≠ w := by
      rintro rfl
      rw [he, Option.some.injEq] at hw
      rw [← hw, hv] at hval'
      cases hval'
    simp only [List.getElem?_set_ne hwv, hw]

theorem resident_refilled (hi : Resident s) {v : ℕ} {e : TranslationEntry}
    (he : s.space.pageTable[v]? = some e) (hv : e.valid = true) :
    Resident (s.refilled (syncEntry s.tlb v e)) := by
  have he' : (s.space.synced s.tlb).pageTable[v]? = some (syncEntry s.tlb v e) := by
    rw [synced_getElem?, he, Option.map_some]
  exact (hi.sync.setSlot s.iter he' (by rw [(syncEntry_valid _ _ _).1, hv])).congr rfl rfl rfl rfl

theorem resident_loaded (hi : Resident s) {v : ℕ} {e : TranslationEntry} {f : Fin numPhysPages}
    (he : s.space.pageTable[v]? = some e) (hv : e.valid = false)
    (hf : s.memoryMap.bit f = false) : Resident (s.loaded v f) := by
  have he' : (s.space.synced s.tlb).pageTable[v]? = some (syncEntry s.tlb v e) := by
    rw [synced_getElem?, he, Option.map_some]
  have hlt := (List.getElem?_eq_some_iff.mp he').1
  have hins := hi.sync.install he' (by rw [(syncEntry_valid _ _ _).1, hv]) hf
  exact (hins.setSlot s.iter (List.getElem?_set_self hlt) rfl).congr rfl rfl rfl rfl

/-! ### and the bytes in place. -/

theorem putBytes_of_outside {mem : Memory} {start a : ℕ} {bytes : List Byte}
    (h : a < start ∨ start + bytes.length ≤ a) : mem.putBytes start bytes a = mem a := by
  unfold Memory.putBytes
  split_ifs with hs
  · rw [List.getElem?_eq_none (by omega)]
    rfl
  · rfl

theorem pageBytes_length_le (a : AddrSpace) (v : ℕ) : (a.pageBytes v).length ≤ pageSize := by
  unfold AddrSpace.pageBytes
  split_ifs
  · simp [HostFile.readAt]
  · simp

theorem holds_refilled (hm : Holds s m) (e : TranslationEntry) : Holds (s.refilled e) m := by
  intro a e' he'
  simp only [Vm.refilled, synced_getElem?, Option.map_eq_some_iff] at he'
  obtain ⟨e₀, he₀, rfl⟩ := he'
  rw [(syncEntry_valid _ _ _).1, (syncEntry_valid _ _ _).2.1]
  exact hm a e₀ he₀

theorem holds_loaded (hi : Resident s) (hz : s.freeZero) (hm : Holds s m) {v : ℕ}
    {e : TranslationEntry} {f : Fin numPhysPages} (he : s.space.pageTable[v]? = some e)
    (hv : e.valid = false) (hf : s.memoryMap.bit f = false) : Holds (s.loaded v f) m := by
  intro a e' he'
  have hlt := (List.getElem?_eq_some_iff.mp he).1
  have hmod : a % pageSize < pageSize := Nat.mod_lt _ (by norm_num)
  by_cases hva : v = a / pageSize
  · subst hva
    have hlen : a / pageSize < (s.space.synced s.tlb).pageTable.length := by
      simpa [AddrSpace.synced] using hlt
    simp only [Vm.loaded, List.getElem?_set_self hlen, Option.some.injEq] at he'
    subst he'
    refine ⟨fun h => absurd h (by simp [AddrSpace.freshEntry]), fun g _ hg => ?_⟩
    have hgf : g.val = f.val := by
      have : ((f.val : ℕ) : ℤ) = (g.val : ℕ) := hg
      omega
    have hbyte : (s.loaded (a / pageSize) f).mainMemory (g * pageSize + a % pageSize) =
        ((s.space.pageBytes (a / pageSize))[a % pageSize]?).getD
          (s.mainMemory (f * pageSize + a % pageSize)) := by
      simp only [Vm.loaded, Memory.putBytes, hgf, Nat.le_add_right, if_true,
        Nat.add_sub_cancel_left]
    rw [hbyte, hz f f.isLt hf _ hmod, (hm a e he).1 hv]
    rfl
  · simp only [Vm.loaded, List.getElem?_set_ne hva, synced_getElem?, Option.map_eq_some_iff] at he'
    obtain ⟨e₀, he₀, rfl⟩ := he'
    rw [(syncEntry_valid _ _ _).1, (syncEntry_valid _ _ _).2.1]
    refine ⟨(hm a e₀ he₀).1, fun g hg hp => ?_⟩
    obtain ⟨g', hg', hbit⟩ := hi.frame _ e₀ he₀ hg
    have hne : g.val ≠ f.val := by
      intro hgf
      have hgg : g'.val = f.val := by omega
      rw [hgg, hf] at hbit
      cases hbit
    have hlen := pageBytes_length_le s.space v
    simp only [Vm.loaded]
    rw [putBytes_of_outside, (hm a e₀ he₀).2 g hg hp]
    simp only [pageSize] at *
    omega

theorem freeZero_loaded (hz : s.freeZero) (v : ℕ) (f : Fin numPhysPages) :
    (s.loaded v f).freeZero := by
  intro g hg hbit j hj
  have hb : (s.memoryMap.setBit f).bit g = false := hbit
  rw [BitMap.bit_setBit _ f.isLt, Bool.or_eq_false_iff, decide_eq_false_iff_not] at hb
  have hlen := pageBytes_length_le s.space v
  have hne := hb.1
  simp only [Vm.loaded]
  rw [putBytes_of_outside, hz g hg hb.2 j hj]
  simp only [pageSize] at *
  omega

structure Ready (s : Vm) (m : Flat) : Prop where
  resident : Resident s
  last : LastCached s
  holds : Holds s m
  zeros : s.freeZero
  one : s.space.iptEntries = 1
  made : s.space.copied = false

def SameProgram (s s' : Vm) : Prop :=
  s'.space.pageTable.length = s.space.pageTable.length ∧ s'.space.noffH1 = s.space.noffH1

theorem faultPage {addr : Word} (hi : Resident s)
    (h : addr.toNat / pageSize < s.space.pageTable.length) :
    addr.toInt.tdiv pageSize = (addr.toNat / pageSize : ℕ) := by
  have hs := hi.size
  have hlt : addr.toNat < 2 ^ 31 := by
    simp only [pageSize] at *
    omega
  rw [BitVec.toInt_eq_toNat_of_lt (by omega)]
  exact (Int.ofNat_tdiv _ _).symm

/-- The page of a miss is not the page of the last fault. -/
theorem Ready.lastFault_ne (hr : Ready s m) {v : ℕ} (hmiss : s.tlb.lookup v = none) :
    ¬(s.lastFault = v) := by
  intro h
  obtain ⟨i, hv, hvp⟩ := hr.last _ h
  exact Tlb.lookup_eq_none.mp hmiss i hv hvp

theorem nachosPageFault_ok {addr : Word} (hr : Ready s m)
    (hlt : addr.toNat / pageSize < s.space.pageTable.length)
    (hmiss : s.tlb.lookup (addr.toNat / pageSize : ℕ) = none)
    (hnv : (∃ e, s.space.pageTable[addr.toNat / pageSize]? = some e ∧ e.valid = true) ∨
      s.hasFrame) :
    ∃ s', nachosPageFault addr s = .ok () s' ∧ Ready s' m ∧ SameProgram s s' ∧
      ∃ i, (s'.tlb i).valid = true ∧ (s'.tlb i).virtualPage = (addr.toNat / pageSize : ℕ) := by
  have hne := hr.lastFault_ne hmiss
  obtain ⟨hi, hl, hm, hz, hone, hmade⟩ := hr
  simp only [nachosPageFault, EStateM.apply_bind, EStateM.apply_get, EStateM.apply_ite,
    faultPage hi hlt, hne, if_false, EStateM.apply_set]
  generalize addr.toNat / pageSize = v at *
  have hi' : Resident { s with lastFault := (v : ℤ) } := hi.congr rfl rfl rfl rfl
  have hm' : Holds { s with lastFault := (v : ℤ) } m := hm
  have hz' : Vm.freeZero { s with lastFault := (v : ℤ) } := hz
  obtain ⟨e, he⟩ : ∃ e, s.space.pageTable[v]? = some e :=
    ⟨_, List.getElem?_eq_getElem hlt⟩
  cases hv : e.valid with
  | true =>
    have hslot : ((s.refilled (syncEntry s.tlb v e)).tlb s.iter).valid = true ∧
        ((s.refilled (syncEntry s.tlb v e)).tlb s.iter).virtualPage = v := by
      simp only [Vm.refilled, Function.update_self]
      rw [(syncEntry_valid _ _ _).1, (syncEntry_valid _ _ _).2.2.2]
      exact ⟨hv, hi.self v e he⟩
    refine ⟨_, moveraMemoria_valid (s := { s with lastFault := (v : ℤ) }) hi'.range hmade he hv,
      ⟨resident_refilled hi' he hv, fun w hw => ?_, holds_refilled hm' _, hz', hone, hmade⟩,
      ⟨?_, rfl⟩, s.iter, hslot⟩
    · have hvw : (v : ℤ) = w := hw
      obtain rfl : v = w := by exact_mod_cast hvw
      exact ⟨s.iter, hslot⟩
    · simp [Vm.refilled, AddrSpace.synced]
  | false =>
    obtain ⟨f, hf, hbit, hent⟩ : ∃ f : Fin numPhysPages,
        s.memoryMap.find = ((f.val : ℤ), s.memoryMap.setBit f) ∧ s.memoryMap.bit f = false ∧
          f.val < s.space.iptEntries := by
      obtain ⟨e', he', hv'⟩ | hframe := hnv
      · rw [he, Option.some.injEq] at he'
        rw [← he', hv] at hv'
        cases hv'
      · exact hframe.frame
    have hslot : ((s.loaded v f).tlb s.iter).valid = true ∧
        ((s.loaded v f).tlb s.iter).virtualPage = v := by
      simp [Vm.loaded, AddrSpace.freshEntry]
    refine ⟨_, moveraMemoria_fresh (s := { s with lastFault := (v : ℤ) }) hi'.range hmade he hv
      (.inr (hi'.synced_clean he hv)) hf hent, ⟨resident_loaded hi' he hv hbit, fun w hw => ?_,
      holds_loaded hi' hz' hm' he hv hbit, freeZero_loaded hz' v f, hone, hmade⟩, ⟨?_, rfl⟩,
      s.iter, hslot⟩
    · have hvw : (v : ℤ) = w := hw
      obtain rfl : v = w := by exact_mod_cast hvw
      exact ⟨s.iter, hslot⟩
    · simp [Vm.loaded, AddrSpace.synced]

theorem nachosPageFault_error {addr : Word} (hr : Ready s m)
    (hlt : addr.toNat / pageSize < s.space.pageTable.length)
    (hmiss : s.tlb.lookup (addr.toNat / pageSize : ℕ) = none)
    (hno : ¬((∃ e, s.space.pageTable[addr.toNat / pageSize]? = some e ∧ e.valid = true) ∨
      s.hasFrame)) : ∃ s', nachosPageFault addr s = .error .memory s' := by
  have hne := hr.lastFault_ne hmiss
  obtain ⟨hi, -, -, -, hone, hmade⟩ := hr
  simp only [nachosPageFault, EStateM.apply_bind, EStateM.apply_get, EStateM.apply_ite,
    faultPage hi hlt, hne, if_false, EStateM.apply_set]
  generalize addr.toNat / pageSize = v at *
  obtain ⟨hinvalid, hframe⟩ := not_or.mp hno
  obtain ⟨e, he⟩ : ∃ e, s.space.pageTable[v]? = some e :=
    ⟨_, List.getElem?_eq_getElem hlt⟩
  have hv : e.valid = false := by
    by_contra hv
    exact hinvalid ⟨e, he, by simpa using hv⟩
  have hi' : Resident { s with lastFault := (v : ℤ) } := hi.congr rfl rfl rfl rfl
  exact moveraMemoria_noEntry (s := { s with lastFault := (v : ℤ) }) hi'.range hmade hone he hv
    (.inr (hi'.synced_clean he hv)) hframe

theorem translateOrServe_hit {addr : Word} {size : ℕ} (writing : Bool) (hr : Ready s m)
    (hs : size = 1 ∨ size = 2 ∨ size = 4) (ha : misaligned addr size = false)
    (hcode : s.space.codePages ≤ addr.toNat / pageSize)
    (hhit : ∃ i, (s.tlb i).valid = true ∧ (s.tlb i).virtualPage = (addr.toNat / pageSize : ℕ)) :
    ∃ (s' : Vm) (e : TranslationEntry) (f : Fin numPhysPages),
      translateOrServe addr size writing s =
        .ok (some (f * pageSize + addr.toNat % pageSize)) s' ∧
      Ready s' m ∧ s'.space = s.space ∧ s'.mainMemory = s.mainMemory ∧
      s.space.pageTable[addr.toNat / pageSize]? = some e ∧ e.valid = true ∧
      e.physicalPage = (f.val : ℤ) := by
  obtain ⟨hi, hl, hm, hz, hone, hmade⟩ := hr
  obtain ⟨i, hlook⟩ := Option.isSome_iff_exists.mp (Tlb.lookup_isSome.mpr hhit)
  obtain ⟨hval, hvp⟩ := Tlb.lookup_eq_some hlook
  obtain ⟨v, e, he, hv, hvp', hpp, hro⟩ := hi.hit i hval
  have hvv : v = addr.toNat / pageSize := by
    rw [hvp] at hvp'
    exact_mod_cast hvp'.symm
  subst hvv
  obtain ⟨f, hf, -⟩ := hi.frame _ e he hv
  have hro' : ((s.tlb i).readOnly && writing) = false := by
    rw [hro, hi.code _ e he hv]
    simp [Nat.not_lt.mpr hcode]
  have htr := translate_tlb_hit ha hlook hro' (hpp.trans hf)
    (offset_add_size_le hs ha)
  have htlb : ∀ k, (Function.update s.tlb i ((s.tlb i).touch writing) k).valid = (s.tlb k).valid ∧
      (Function.update s.tlb i ((s.tlb i).touch writing) k).virtualPage = (s.tlb k).virtualPage ∧
      (Function.update s.tlb i ((s.tlb i).touch writing) k).physicalPage = (s.tlb k).physicalPage ∧
      (Function.update s.tlb i ((s.tlb i).touch writing) k).readOnly = (s.tlb k).readOnly := by
    intro k
    by_cases hk : k = i
    · rw [hk, Function.update_self]
      exact ⟨rfl, rfl, rfl, rfl⟩
    · rw [Function.update_of_ne hk]
      exact ⟨rfl, rfl, rfl, rfl⟩
  refine ⟨{ s with tlb := Function.update s.tlb i ((s.tlb i).touch writing) }, e, f, ?_,
    ⟨⟨fun k => ?_, hi.size, hi.self, hi.clean, hi.frame, hi.inj, hi.code, fun k hk => ?_,
      fun k hk => ?_⟩, fun w hw => ?_, hm, hz, hone, hmade⟩, rfl, rfl, he, hv, hf⟩
  · simp only [translateOrServe, EStateM.apply_bind, EStateM.apply_get, htr, EStateM.apply_set,
      EStateM.apply_pure]
  · dsimp only
    rw [(htlb k).2.1]
    exact hi.range k
  · dsimp only at hk ⊢
    rw [(htlb k).1] at hk
    rw [(htlb k).2.1, (htlb k).2.2.1, (htlb k).2.2.2]
    exact hi.hit k hk
  · dsimp only at hk ⊢
    rw [(htlb k).1] at hk
    have hki : k ≠ i := by
      rintro rfl
      rw [hval] at hk
      cases hk
    rw [Function.update_of_ne hki]
    exact hi.miss k hk
  · obtain ⟨k, hk, hkv⟩ := hl w hw
    refine ⟨k, ?_⟩
    dsimp only
    rw [(htlb k).1, (htlb k).2.1]
    exact ⟨hk, hkv⟩

theorem translateOrServe_miss {addr : Word} {size : ℕ} (writing : Bool) {s' : Vm}
    (ha : misaligned addr size = false)
    (hmiss : s.tlb.lookup (addr.toNat / pageSize : ℕ) = none)
    (h : nachosPageFault addr s = .ok () s') :
    translateOrServe addr size writing s = .ok none s' := by
  simp only [translateOrServe, EStateM.apply_bind, EStateM.apply_get,
    translate_tlb_miss writing ha hmiss, raiseMemoryException, h, EStateM.apply_pure]

/-- After at most one fault the page of a legal access is in the TLB. -/
theorem exists_hit {acc : Access} (writing : Bool) (hr : Ready s m) (hl : acc.legal s)
    (hnv : acc.framed s) :
    (∃ i, (s.tlb i).valid = true ∧ (s.tlb i).virtualPage = (acc.addr.toNat / pageSize : ℕ)) ∨
    ∃ s', translateOrServe acc.addr acc.size writing s = .ok none s' ∧ Ready s' m ∧
      SameProgram s s' ∧
      ∃ i, (s'.tlb i).valid = true ∧ (s'.tlb i).virtualPage = (acc.addr.toNat / pageSize : ℕ) := by
  obtain ⟨-, ha, -, hlt⟩ := hl
  cases hlook : s.tlb.lookup (acc.addr.toNat / pageSize : ℕ) with
  | some i => exact .inl ⟨i, Tlb.lookup_eq_some hlook⟩
  | none =>
    obtain ⟨s', hf, hr', hs', hi'⟩ := nachosPageFault_ok hr hlt hlook hnv
    exact .inr ⟨s', translateOrServe_miss writing ha hlook hf, hr', hs', hi'⟩

theorem read_isSome (mem : Memory) (pa : ℕ) {size : ℕ} (hs : size = 1 ∨ size = 2 ∨ size = 4) :
    ∃ v, mem.read pa size = some v := by
  obtain rfl | rfl | rfl := hs <;> exact ⟨_, rfl⟩

theorem div_mod_of_lt {a n j : ℕ} (h : a % pageSize + n ≤ pageSize) (hj : j < n) :
    (a + j) / pageSize = a / pageSize ∧ (a + j) % pageSize = a % pageSize + j := by
  simp only [pageSize] at *
  omega

theorem vmReadMem_hit (addr : Word) (size : ℕ) (hr : Ready s m)
    (hs : size = 1 ∨ size = 2 ∨ size = 4) (ha : misaligned addr size = false)
    (hcode : s.space.codePages ≤ addr.toNat / pageSize)
    (hhit : ∃ i, (s.tlb i).valid = true ∧ (s.tlb i).virtualPage = (addr.toNat / pageSize : ℕ)) :
    ∃ v s', vmReadMem addr size s = .ok (some v) s' ∧ Ready s' m ∧
      ∀ j < size, v.extractLsb' (8 * j) 8 = m (addr.toNat + j) := by
  obtain ⟨s', e, f, htr, hr', -, hmem, he, hval, hf⟩ :=
    translateOrServe_hit false hr hs ha hcode hhit
  obtain ⟨v, hv⟩ := read_isSome s'.mainMemory (f * pageSize + addr.toNat % pageSize) hs
  refine ⟨v, s', ?_, hr', fun j hj => ?_⟩
  · simp only [vmReadMem, EStateM.apply_bind, htr, EStateM.apply_get, hv, EStateM.apply_pure]
  · obtain ⟨hdiv, hmod⟩ := div_mod_of_lt (offset_add_size_le hs ha) hj
    have hbyte := (hr.holds (addr.toNat + j) e (by rw [hdiv]; exact he)).2 f hval hf
    rw [Memory.extract_read hv hj, hmem, ← hbyte, hmod, Nat.add_assoc]

theorem vmWriteMem_hit (addr : Word) (size : ℕ) (value : Word) (hr : Ready s m)
    (hs : size = 1 ∨ size = 2 ∨ size = 4) (ha : misaligned addr size = false)
    (hcode : s.space.codePages ≤ addr.toNat / pageSize)
    (hhit : ∃ i, (s.tlb i).valid = true ∧ (s.tlb i).virtualPage = (addr.toNat / pageSize : ℕ)) :
    ∃ s', vmWriteMem addr size value s = .ok true s' ∧
      Ready s' ((Access.store addr size value).flat m) := by
  obtain ⟨s', e, f, htr, ⟨hi', hl', hm', hz', hone', hmade'⟩, hsp, hmem, he, hv, hf⟩ :=
    translateOrServe_hit true hr hs ha hcode hhit
  have hoff := offset_add_size_le hs ha
  obtain ⟨g, hg, hbit⟩ := hi'.frame _ e (by rw [hsp]; exact he) hv
  have hgf : g.val = f.val := by omega
  rw [hgf] at hbit
  refine ⟨{ s' with mainMemory :=
    s'.mainMemory.store (f * pageSize + addr.toNat % pageSize) size value }, ?_,
    ⟨hi'.congr rfl rfl rfl rfl, hl', fun x e' he' => ?_, fun k hk hfree j hj => ?_, hone', hmade'⟩⟩
  · simp only [vmWriteMem, EStateM.apply_bind, htr, EStateM.apply_modify, EStateM.apply_pure]
  · have hxm : x % pageSize < pageSize := Nat.mod_lt _ (by norm_num)
    simp only [Access.flat]
    split_ifs with hin
    · obtain ⟨j, rfl⟩ := Nat.exists_eq_add_of_le hin.1
      obtain ⟨hdiv, hmod⟩ := div_mod_of_lt hoff (show j < size by omega)
      rw [hdiv, hsp, he, Option.some.injEq] at he'
      subst he'
      refine ⟨fun h => absurd hv (by simp [h]), fun k _ hk => ?_⟩
      have hkf : k.val = f.val := by omega
      simp only [Memory.store]
      rw [hmod, hkf, if_pos (by omega)]
      congr 2
      omega
    · refine ⟨(hm' x e' he').1, fun k hk hp => ?_⟩
      rw [← (hm' x e' he').2 k hk hp]
      simp only [Memory.store]
      rw [if_neg]
      rintro ⟨h1, h2⟩
      have hkf : k.val = f.val := by
        simp only [pageSize] at *
        omega
      -- one frame, so one page, so the byte is one of those stored
      have hpage : x / pageSize = addr.toNat / pageSize := by
        refine hi'.inj _ _ e' e he' (by rw [hsp]; exact he) hk hv ?_
        rw [hp, hf, hkf]
      refine hin ?_
      simp only [pageSize] at *
      omega
  · have hkf : k ≠ f.val := by
      rintro rfl
      rw [hbit] at hfree
      cases hfree
    rw [← hz' k hk hfree j hj]
    simp only [Memory.store]
    rw [if_neg]
    simp only [pageSize] at *
    omega

theorem legal_of_same {acc : Access} {s' : Vm} (hl : acc.legal s) (hs : SameProgram s s') :
    acc.legal s' := by
  obtain ⟨h1, h2, h3, h4⟩ := hl
  refine ⟨h1, h2, ?_, by rw [hs.1]; exact h4⟩
  simp only [AddrSpace.codePages, hs.2] at h3 ⊢
  exact h3

theorem userLoad_ok {addr : Word} {size : ℕ} (hr : Ready s m)
    (hl : (Access.load addr size).legal s) (hf : (Access.load addr size).framed s) :
    ∃ v s', userLoad addr size s = .ok v s' ∧ Ready s' m ∧
      ∀ j < size, v.extractLsb' (8 * j) 8 = m (addr.toNat + j) := by
  obtain hhit | ⟨s₁, htr, hr₁, hsame, hhit⟩ := exists_hit false hr hl hf
  · obtain ⟨hs, ha, hcode, -⟩ := hl
    obtain ⟨v, s', hread, hr', hv⟩ := vmReadMem_hit addr size hr hs ha hcode hhit
    refine ⟨v, s', ?_, hr', hv⟩
    simp only [userLoad, EStateM.apply_bind, hread, EStateM.apply_pure]
  · obtain ⟨hs, ha, hcode, -⟩ := legal_of_same hl hsame
    obtain ⟨v, s', hread, hr', hv⟩ := vmReadMem_hit addr size hr₁ hs ha hcode hhit
    have hnone : vmReadMem addr size s = .ok none s₁ := by
      simp only [vmReadMem, EStateM.apply_bind]
      simp only [Access.addr, Access.size] at htr
      simp only [htr, EStateM.apply_pure]
    refine ⟨v, s', ?_, hr', hv⟩
    simp only [userLoad, EStateM.apply_bind, hnone, hread, EStateM.apply_pure]

theorem userStore_ok {addr value : Word} {size : ℕ} (hr : Ready s m)
    (hl : (Access.store addr size value).legal s)
    (hf : (Access.store addr size value).framed s) :
    ∃ s', userStore addr size value s = .ok () s' ∧
      Ready s' ((Access.store addr size value).flat m) := by
  obtain hhit | ⟨s₁, htr, hr₁, hsame, hhit⟩ := exists_hit true hr hl hf
  · obtain ⟨hs, ha, hcode, -⟩ := hl
    obtain ⟨s', hwrite, hr'⟩ := vmWriteMem_hit addr size value hr hs ha hcode hhit
    refine ⟨s', ?_, hr'⟩
    simp only [userStore, EStateM.apply_bind, hwrite, EStateM.apply_pure, if_true]
  · obtain ⟨hs, ha, hcode, -⟩ := legal_of_same hl hsame
    obtain ⟨s', hwrite, hr'⟩ := vmWriteMem_hit addr size value hr₁ hs ha hcode hhit
    have hnone : vmWriteMem addr size value s = .ok false s₁ := by
      simp only [vmWriteMem, EStateM.apply_bind]
      simp only [Access.addr, Access.size] at htr
      simp only [htr, EStateM.apply_pure]
    refine ⟨s', ?_, hr'⟩
    simp only [userStore, EStateM.apply_bind, hnone, hwrite, EStateM.apply_pure, if_true,
      Bool.false_eq_true, if_false]

/-- An access whose page gets a frame behaves as on the array. -/
theorem run_framed {acc : Access} (hr : Ready s m) (hl : acc.legal s) (hf : acc.framed s) :
    ∃ r s', acc.run s = .ok r s' ∧ Ready s' (acc.flat m) ∧ acc.returns m r := by
  cases acc with
  | load addr size =>
    obtain ⟨v, s', hload, hr', hv⟩ := userLoad_ok hr hl hf
    refine ⟨some v, s', ?_, hr', v, rfl, hv⟩
    simp only [Access.run, EStateM.apply_bind, hload, EStateM.apply_pure]
  | store addr size value =>
    obtain ⟨s', hstore, hr'⟩ := userStore_ok hr hl hf
    refine ⟨none, s', ?_, hr', rfl⟩
    simp only [Access.run, EStateM.apply_bind, hstore, EStateM.apply_pure]

/-- An access whose page gets none does not come back. -/
theorem run_not_framed {acc : Access} (hr : Ready s m) (hl : acc.legal s) (hf : ¬acc.framed s) :
    ∃ s', acc.run s = .error .memory s' := by
  obtain ⟨-, ha, -, hlt⟩ := hl
  have hmiss : s.tlb.lookup (acc.addr.toNat / pageSize : ℕ) = none := by
    cases hlook : s.tlb.lookup (acc.addr.toNat / pageSize : ℕ) with
    | none => rfl
    | some i =>
      obtain ⟨hval, hvp⟩ := Tlb.lookup_eq_some hlook
      obtain ⟨v, e, he, hv, hvp', -⟩ := hr.resident.hit i hval
      have hvv : v = acc.addr.toNat / pageSize := by
        rw [hvp] at hvp'
        exact_mod_cast hvp'.symm
      exact absurd (Or.inl ⟨e, hvv ▸ he, hv⟩) hf
  obtain ⟨s', hfault⟩ := nachosPageFault_error hr hlt hmiss hf
  have htr : ∀ writing, translateOrServe acc.addr acc.size writing s = .error .memory s' := by
    intro writing
    simp only [translateOrServe, EStateM.apply_bind, EStateM.apply_get,
      translate_tlb_miss writing ha hmiss, raiseMemoryException, hfault]
  refine ⟨s', ?_⟩
  cases acc with
  | load addr size =>
    have h := htr false
    simp only [Access.addr, Access.size] at h
    simp only [Access.run, userLoad, vmReadMem, EStateM.apply_bind, h]
  | store addr size value =>
    have h := htr true
    simp only [Access.addr, Access.size] at h
    simp only [Access.run, userStore, vmWriteMem, EStateM.apply_bind, h]

theorem reachable_ready {x : Vm × Flat} (h : Reachable Boot PagedStep x) : Ready x.1 x.2 := by
  refine h.invariant (P := fun x => Ready x.1 x.2) (fun x hx => ?_) fun x x' hr hstep => ?_
  · obtain ⟨h1, h2, h3⟩ := resident_boot (s := x.1) (m := x.2) hx
    obtain ⟨⟨noffH, exe, hsp⟩, -, -, -, hz, -⟩ := hx
    refine ⟨h1, h2, h3, fun f _ _ j _ => by rw [hz], ?_, ?_⟩
    · rw [hsp]
      rfl
    · rw [hsp]
      rfl
  · obtain ⟨acc, hl, hf, ⟨r, hrun⟩, hm⟩ := hstep
    obtain ⟨r', s', hrun', hr', -⟩ := run_framed hr hl hf
    rw [hrun] at hrun'
    cases hrun'
    rw [hm]
    exact hr'

/-- In a run in which every page that was brought in got a frame with an entry in the core map,
a legal access behaves as on an array of bytes, which starts as the program's image, exactly if
its page is in memory or gets such a frame; otherwise it does not come back. -/
theorem demandPaging_transparent {s : Vm} {m : Flat} (h : Reachable Boot PagedStep (s, m))
    (acc : Access) (hl : acc.legal s) :
    ((∃ r s', acc.run s = .ok r s' ∧ acc.returns m r) ↔ acc.framed s) ∧
      (¬acc.framed s → ∃ s', acc.run s = .error .memory s') := by
  have hr := reachable_ready h
  refine ⟨⟨fun hrun => ?_, fun hf => ?_⟩, run_not_framed hr hl⟩
  · by_contra hf
    obtain ⟨r, s', hok, -⟩ := hrun
    obtain ⟨s'', herr⟩ := run_not_framed hr hl hf
    rw [hok] at herr
    cases herr
  · obtain ⟨r, s', hok, -, hret⟩ := run_framed hr hl hf
    exact ⟨r, s', hok, hret⟩

/-- An executable of 40 pages, none of them code. -/
def dataProgram : NoffHeader := ⟨⟨0, 0, 0⟩, ⟨0, 0, 0⟩, ⟨0, 0, 4096⟩, by decide⟩

def bootVm : Vm where
  mainMemory := fun _ => 0
  tlb := fun _ => ⟨0, 0, false, false, false, false⟩
  memoryMap := .empty _
  swapMap := .empty _
  swap := []
  iter := 0
  lastFault := -1
  space := .new dataProgram []

theorem boot_bootVm : Boot (bootVm, bootVm.space.image) :=
  ⟨⟨dataProgram, [], rfl⟩, fun i => by revert i; decide, fun _ => ⟨rfl, rfl⟩, rfl, rfl, rfl⟩

def tryAccess (x : Vm × Flat) (acc : Access) : Option (Vm × Flat) :=
  if acc.legal x.1 then
    match acc.run x.1 with
    | .ok _ s' => some (s', acc.flat x.2)
    | .error _ _ => none
  else none

theorem accessStep_of_tryAccess {x x' : Vm × Flat} {acc : Access} (h : tryAccess x acc = some x') :
    acc.legal x.1 ∧ (∃ r, acc.run x.1 = .ok r x'.1) ∧ x'.2 = acc.flat x.2 := by
  unfold tryAccess at h
  split_ifs at h with hl
  split at h
  · rename_i r s' hrun
    obtain rfl := Option.some.inj h
    exact ⟨hl, ⟨r, hrun⟩, rfl⟩
  · cases h

def pageAddr (v : ℕ) : Word := BitVec.ofNat 32 (v * pageSize)

instance (acc : Access) (s : Vm) : Decidable (acc.framed s) :=
  decidable_of_iff ((∃ e ∈ s.space.pageTable[acc.addr.toNat / pageSize]?, e.valid = true) ∨
    s.hasFrame) Iff.rfl

def tryPaged (x : Vm × Flat) (acc : Access) : Option (Vm × Flat) :=
  if acc.framed x.1 then tryAccess x acc else none

theorem pagedStep_of_tryPaged {x x' : Vm × Flat} {acc : Access} (h : tryPaged x acc = some x') :
    PagedStep x x' := by
  unfold tryPaged at h
  split_ifs at h with hf
  obtain ⟨hl, hrun, hm⟩ := accessStep_of_tryAccess h
  exact ⟨acc, hl, hf, hrun, hm⟩

theorem tryPaged_flat {x x' : Vm × Flat} {acc : Access} (h : tryPaged x acc = some x') :
    x'.2 = acc.flat x.2 := by
  unfold tryPaged at h
  split_ifs at h
  exact (accessStep_of_tryAccess h).2.2

theorem reachable_tryPaged {accs : List Access} {x y : Vm × Flat} (hx : Boot x)
    (h : accs.foldlM tryPaged x = some y) : Reachable Boot PagedStep y :=
  Reachable.of_foldlM (fun x acc x' (h : tryPaged x acc = some x') => pagedStep_of_tryPaged h)
    (.init hx) h

def storeLoad : List Access := [.store (pageAddr 1) 1 0xaa, .load (pageAddr 1) 4]

theorem storeLoad_load :
    ∃ s m, storeLoad.foldlM tryPaged (bootVm, bootVm.space.image) = some (s, m) ∧
      ∃ v s', (Access.load (pageAddr 1) 2).run s = .ok (some v) s' ∧
        v.extractLsb' 0 8 = 0xaa ∧ v.extractLsb' 8 8 = 0 := by
  have hrun : (storeLoad.foldlM tryPaged (bootVm, bootVm.space.image)).any (fun x : Vm × Flat =>
      decide ((Access.load (pageAddr 1) 2).legal x.1) &&
      decide ((Access.load (pageAddr 1) 2).framed x.1) &&
      decide (x.2 (pageAddr 1).toNat = 0xaa) &&
      decide (x.2 ((pageAddr 1).toNat + 1) = 0)) = true := by decide +kernel
  obtain ⟨⟨s, m⟩, hs, hx⟩ := (Option.any_eq_true _ _).mp hrun
  simp only [Bool.and_eq_true, decide_eq_true_eq] at hx
  obtain ⟨⟨⟨hl, hf⟩, h0⟩, h1⟩ := hx
  obtain ⟨r, s', hload, v, rfl, hb⟩ :=
    (demandPaging_transparent (reachable_tryPaged boot_bootVm hs) _ hl).1.mpr hf
  exact ⟨s, m, hs, v, s', hload, (hb 0 (by norm_num)).trans h0, (hb 1 (by norm_num)).trans h1⟩

def mappedVm : Vm := { bootVm with space := { bootVm.space with iptEntries := numPhysPages } }

/-- Page 1 is stored to, pages up to 31 fill the frames, and page 32 takes the frame of
page 1 without any trace in the entry of page 1. -/
def stolenFrame : List Access :=
  [.load (pageAddr 0) 1, .store (pageAddr 1) 1 0xaa] ++
    (List.range 30).map (fun v => .load (pageAddr (v + 2)) 1) ++ [.store (pageAddr 32) 1 0xbb]

def loadsByte (b : Byte) : EStateM.Result Trap Vm (Option Word) → Bool
  | .ok (some v) _ => decide (v.extractLsb' 0 8 = b)
  | _ => false

theorem loadsByte_eq_true {b : Byte} {r : EStateM.Result Trap Vm (Option Word)}
    (h : loadsByte b r = true) : ∃ v s', r = .ok (some v) s' ∧ v.extractLsb' 0 8 = b := by
  cases r with
  | ok a s' =>
    cases a with
    | some v => exact ⟨v, s', rfl, of_decide_eq_true h⟩
    | none => cases h
  | error t s' => cases h

theorem secondPage_not_transparent :
    (∃ s m, Reachable Boot PagedStep (s, m) ∧ s.swapMap.find.1 = 0 ∧
      (Access.store (pageAddr 1) 1 0xbb).legal s ∧
      ∃ s', (Access.store (pageAddr 1) 1 0xbb).run s = .error .memory s') ∧
    ∃ s m, stolenFrame.foldlM tryAccess (mappedVm, mappedVm.space.image) = some (s, m) ∧
      s.swapMap.find.1 = 0 ∧ m (pageAddr 1).toNat = 0xaa ∧
      ∃ v s', (Access.load (pageAddr 1) 1).run s = .ok (some v) s' ∧
        v.extractLsb' 0 8 = 0xbb := by
  constructor
  · have hrun : ([Access.store (pageAddr 0) 1 0xaa].foldlM tryPaged
        (bootVm, bootVm.space.image)).any (fun x : Vm × Flat =>
      decide (x.1.swapMap.find.1 = 0) && decide ((Access.store (pageAddr 1) 1 0xbb).legal x.1) &&
      decide (¬(Access.store (pageAddr 1) 1 0xbb).framed x.1)) = true := by decide +kernel
    obtain ⟨⟨s, m⟩, hs, hx⟩ := (Option.any_eq_true _ _).mp hrun
    simp only [Bool.and_eq_true, decide_eq_true_eq] at hx
    obtain ⟨⟨hswap, hl⟩, hf⟩ := hx
    have hreach := reachable_tryPaged boot_bootVm hs
    exact ⟨s, m, hreach, hswap, hl, run_not_framed (reachable_ready hreach) hl hf⟩
  · have hrun : (stolenFrame.foldlM tryAccess (mappedVm, mappedVm.space.image)).any
        (fun x : Vm × Flat => decide (x.1.swapMap.find.1 = 0) &&
          decide (x.2 (pageAddr 1).toNat = 0xaa) &&
          loadsByte 0xbb ((Access.load (pageAddr 1) 1).run x.1)) = true := by decide +kernel
    obtain ⟨⟨s, m⟩, hs, hx⟩ := (Option.any_eq_true _ _).mp hrun
    simp only [Bool.and_eq_true, decide_eq_true_eq] at hx
    obtain ⟨⟨hswap, hm⟩, hload⟩ := hx
    obtain ⟨v, s', hstep, hv⟩ := loadsByte_eq_true hload
    exact ⟨s, m, hs, hswap, hm, v, s', hstep, hv⟩

end Nachos
