import Nachos.SwapService

/-! The TLB, the core map and the slots of the swap file over a whole run of one address space
(`addrspace.cc`, `exception.cc`). A page that is not in memory and dirty is in the swap file, in
the slot that its `physicalPage` names. Victims are taken without telling the page they belong to,
but what a fault does to the TLB and to the slots stays in order. -/
namespace Nachos

def Vm.inSlot (s : Vm) (v c : ℕ) : Prop :=
  ∃ e, s.bits v = some e ∧ e.valid = false ∧ e.dirty = true ∧ e.physicalPage = c

/-- The TLB is full, or it fills up from slot 0 and memory with it. -/
def Filling (c : Core) : Prop :=
  (∀ i, (c.tlb i).valid = true) ∨
    (∀ i, (c.tlb i).valid = true ↔ i.val < c.iter.val) ∧
      ∀ f < numPhysPages, c.memoryMap.bit f = true → f < c.iter.val

/-- The core map has an entry for every frame, and the space is not a copy. -/
structure AddrSpace.Mapped (a : AddrSpace) : Prop where
  entries : a.iptEntries = numPhysPages
  made : a.copied = false

structure Paging (s : Vm) : Prop extends AddrSpace.Mapped s.space where
  range : s.tlbInRange
  self : ∀ v e, s.bits v = some e → e.virtualPage = v
  frame : ∀ v e, s.bits v = some e → e.valid = true →
    ∃ f : Fin numPhysPages, e.physicalPage = (f.val : ℕ)
  hit : ∀ i, (s.tlb i).valid = true → ∃ (v : ℕ) (e : TranslationEntry), s.bits v = some e ∧
    e.valid = true ∧ (s.tlb i).virtualPage = v ∧ (s.tlb i).physicalPage = e.physicalPage
  apart : ∀ i j, (s.tlb i).valid = true → (s.tlb j).valid = true →
    (s.tlb i).virtualPage = (s.tlb j).virtualPage → i = j
  core : ∀ f : Fin numPhysPages, s.memoryMap.bit f = true → ∃ (v : ℕ) (e : TranslationEntry),
    s.space.ipt f = v ∧ s.bits v = some e ∧ e.valid = true ∧ e.physicalPage = (f.val : ℕ)
  code : ∀ v e, s.bits v = some e → v < s.space.codePages → e.dirty = false ∧
    (e.valid = true → e.readOnly = true)
  codeSlot : ∀ i, (s.tlb i).virtualPage < s.space.codePages →
    (s.tlb i).dirty = false ∧ ((s.tlb i).valid = true → (s.tlb i).readOnly = true)
  filling : Filling s.toCore
  unused : ¬(∀ i, (s.tlb i).valid = true) → ∀ v c, ¬s.inSlot v c
  miss : ∀ i, (s.tlb i).valid = false → (s.tlb i).dirty = false
  slot : ∀ v e, s.bits v = some e → e.valid = false → e.dirty = true →
    ∃ c < numPhysPages * 2, e.physicalPage = (c : ℕ)
  once : ∀ v v' c, s.inSlot v c → s.inSlot v' c → v = v'
  marks : ∀ c < numPhysPages * 2, s.swapMap.bit c = true ↔ ∃ v, s.inSlot v c

variable {s s' : Vm}

theorem Filling.full_tlb {c : Core} (h : Filling c)
    (hfull : ∀ f < numPhysPages, c.memoryMap.bit f = true) (i : Fin tlbSize) :
    (c.tlb i).valid = true := by
  obtain hv | ⟨-, hb⟩ := h
  · exact hv i
  · have := hb 31 (by norm_num) (hfull 31 (by norm_num))
    have := c.iter.isLt
    simp only [tlbSize] at this
    omega

theorem Filling.next {c c' : Core} {e : TranslationEntry} (h : Filling c)
    (htlb : c'.tlb = Function.update c.tlb c.iter e) (he : e.valid = true)
    (hnext : c'.iter = c.iter + 1)
    (hmap : (∀ i < numPhysPages, c.memoryMap.bit i = true) ∨ c'.memoryMap = c.memoryMap ∨
      ∃ i < numPhysPages, (∀ j < i, c.memoryMap.bit j = true) ∧
        c'.memoryMap = c.memoryMap.setBit i) : Filling c' := by
  have hslot : (c'.tlb c.iter).valid = true := by
    rw [htlb, Function.update_self, he]
  have hrest : ∀ k, k ≠ c.iter → c'.tlb k = c.tlb k := by
    intro k hk
    rw [htlb, Function.update_of_ne hk]
  have hiter : c.iter.val < 4 := c.iter.isLt
  obtain hv | ⟨hv, hb⟩ := h
  · refine .inl fun k => ?_
    by_cases hk : k = c.iter
    · rw [hk, hslot]
    · rw [hrest k hk, hv k]
  by_cases hlast : c.iter.val = 3
  · refine .inl fun k => ?_
    have hk4 : k.val < 4 := k.isLt
    by_cases hk : k = c.iter
    · rw [hk, hslot]
    · have hne : k.val ≠ c.iter.val := fun h => hk (Fin.ext h)
      rw [hrest k hk, hv k]
      omega
  · have hnext : c'.iter.val = c.iter.val + 1 := by
      rw [hnext]
      exact Fin.val_add_one_of_lt' (show c.iter.val + 1 < 4 by omega)
    refine .inr ⟨fun k => ?_, fun f hf hbit => ?_⟩
    · rw [hnext]
      by_cases hk : k = c.iter
      · rw [hk, hslot]
        simp
      · have hne : k.val ≠ c.iter.val := fun h => hk (Fin.ext h)
        rw [hrest k hk, hv k]
        omega
    · rw [hnext]
      obtain hfull | hm | ⟨i, hi, hbelow, hm⟩ := hmap
      · have := hb 31 (by norm_num) (hfull 31 (by norm_num))
        omega
      · rw [hm] at hbit
        have := hb f hf hbit
        omega
      · rw [hm, BitMap.bit_setBit _ hi, Bool.or_eq_true, decide_eq_true_eq] at hbit
        obtain rfl | hbit := hbit
        · by_contra hge
          have := hb c.iter.val (by omega) (hbelow c.iter.val (by omega))
          omega
        · have := hb f hf hbit
          omega

theorem bits_eq_some {v : ℕ} {e : TranslationEntry} :
    s.bits v = some e ↔ ∃ e₀, s.space.pageTable[v]? = some e₀ ∧ e = e₀.unused := by
  rw [Vm.bits, Option.map_eq_some_iff]
  constructor
  · rintro ⟨e₀, h, h'⟩
    exact ⟨e₀, h, h'.symm⟩
  · rintro ⟨e₀, h, h'⟩
    exact ⟨e₀, h, h'.symm⟩

theorem bits_absent {v : ℕ} {e e' : TranslationEntry} (h : s.bits v = some e)
    (h' : s.bits v = some e') (hv : e.valid = false) : ¬e'.valid = true := by
  rw [h] at h'
  rw [← Option.some.inj h', hv]
  exact Bool.false_ne_true

theorem exists_page {v : ℕ} (h : v < s.space.pageTable.length) :
    ∃ e, s.space.pageTable[v]? = some e :=
  ⟨_, List.getElem?_eq_getElem h⟩

theorem update_cases {α β : Type} [DecidableEq α] (f : α → β) (a : α) (b : β) (i : α) :
    (i = a ∧ Function.update f a b i = b) ∨ i ≠ a ∧ Function.update f a b i = f i := by
  by_cases hi : i = a
  · exact Or.inl ⟨hi, by rw [hi, Function.update_self]⟩
  · exact Or.inr ⟨hi, Function.update_of_ne hi _ _⟩

theorem Paging.synced_absent (hp : Paging s) {v : ℕ} {e : TranslationEntry}
    (he : s.space.pageTable[v]? = some e) (hv : e.valid = false) :
    (syncEntry s.tlb v e).dirty = e.dirty := by
  obtain hd | ⟨i, hvp, hd⟩ := syncEntry_dirty s.tlb v e
  · exact hd
  · cases hval : (s.tlb i).valid with
    | true =>
      obtain ⟨v', e', he', hv', hvp', -⟩ := hp.hit i hval
      obtain rfl : v = v' := by exact_mod_cast hvp.symm.trans hvp'
      exact absurd hv' (bits_absent (bits_eq_some.mpr ⟨e, he, rfl⟩) he' hv)
    | false =>
      rw [hd, hp.miss i hval]
      cases hde : e.dirty with
      | false => rfl
      | true =>
        have hbits : s.bits v = some e.unused := by rw [Vm.bits, he, Option.map_some]
        obtain ⟨c, -, hc⟩ := hp.slot v e.unused hbits hv hde
        refine absurd ⟨e.unused, hbits, hv, hde, hc⟩ (hp.unused (fun hall => ?_) v c)
        rw [hall i] at hval
        cases hval

theorem Paging.synced_bits (hp : Paging s) {v : ℕ} {e : TranslationEntry}
    (h : Vm.bits { s with space := s.space.synced s.tlb } v = some e) :
    ∃ e₀, s.bits v = some e₀ ∧ e.valid = e₀.valid ∧ e.physicalPage = e₀.physicalPage ∧
      e.virtualPage = e₀.virtualPage ∧ e.readOnly = e₀.readOnly ∧
      (e.valid = false → e.dirty = e₀.dirty) ∧ (v < s.space.codePages → e.dirty = false) := by
  obtain ⟨e₁, he₁, rfl⟩ := bits_eq_some.mp h
  dsimp only at he₁
  rw [synced_getElem?, Option.map_eq_some_iff] at he₁
  obtain ⟨e₀, he₀, rfl⟩ := he₁
  have hbits : s.bits v = some e₀.unused := by rw [Vm.bits, he₀, Option.map_some]
  obtain ⟨hval, hphys, hro, hvp⟩ := syncEntry_valid s.tlb v e₀
  refine ⟨e₀.unused, hbits, hval, hphys, hvp, hro, fun hv => ?_, fun hc => ?_⟩
  · exact hp.synced_absent he₀ (hval.symm.trans hv)
  · obtain hd | ⟨i, hvi, hd⟩ := syncEntry_dirty s.tlb v e₀
    · exact hd.trans (hp.code v _ hbits hc).1
    · exact hd.trans (hp.codeSlot i (by rw [hvi]; exact_mod_cast hc)).1

theorem Paging.exists_synced (hp : Paging s) {v : ℕ} {e₀ : TranslationEntry}
    (h : s.bits v = some e₀) : ∃ e, Vm.bits { s with space := s.space.synced s.tlb } v = some e ∧
      e.valid = e₀.valid ∧ e.physicalPage = e₀.physicalPage ∧
      (e.valid = false → e.dirty = e₀.dirty) := by
  have hsome : ∃ e, Vm.bits { s with space := s.space.synced s.tlb } v = some e := by
    obtain ⟨e₁, he₁, -⟩ := bits_eq_some.mp h
    exact ⟨_, bits_eq_some.mpr ⟨_, by rw [synced_getElem?, he₁, Option.map_some], rfl⟩⟩
  obtain ⟨e, he⟩ := hsome
  obtain ⟨e₂, he₂, hv, hphys, -, -, hd, -⟩ := hp.synced_bits he
  rw [h] at he₂
  obtain rfl := Option.some.inj he₂
  exact ⟨e, he, hv, hphys, hd⟩

theorem Paging.synced_inSlot (hp : Paging s) {v c : ℕ} :
    Vm.inSlot { s with space := s.space.synced s.tlb } v c ↔ s.inSlot v c := by
  constructor
  · rintro ⟨e, he, hv, hd, hc⟩
    obtain ⟨e₀, he₀, hv₀, hphys, -, -, hd₀, -⟩ := hp.synced_bits he
    exact ⟨e₀, he₀, hv₀ ▸ hv, hd₀ hv ▸ hd, hphys ▸ hc⟩
  · rintro ⟨e₀, he₀, hv, hd, hc⟩
    obtain ⟨e, he, hv', hphys, hd'⟩ := hp.exists_synced he₀
    have hinv : e.valid = false := hv'.trans hv
    exact ⟨e, he, hinv, (hd' hinv).trans hd, hphys.trans hc⟩

theorem Paging.sync (hp : Paging s) : Paging { s with space := s.space.synced s.tlb } := by
  have hlen : (s.space.synced s.tlb).pageTable.length = s.space.pageTable.length :=
    List.length_mapIdx
  constructor
  case toMapped => exact ⟨hp.entries, hp.made⟩
  case range =>
    intro i
    dsimp only
    rw [hlen]
    exact hp.range i
  case self =>
    intro v e he
    obtain ⟨e₀, he₀, -, -, hvp, -⟩ := hp.synced_bits he
    exact hvp.trans (hp.self v e₀ he₀)
  case frame =>
    intro v e he hv
    obtain ⟨e₀, he₀, hv₀, hphys, -⟩ := hp.synced_bits he
    rw [hphys]
    exact hp.frame v e₀ he₀ (hv₀ ▸ hv)
  case hit =>
    intro i hi
    obtain ⟨v, e₀, he₀, hv, hvp, hphys⟩ := hp.hit i hi
    obtain ⟨e, he, hv', hphys', -⟩ := hp.exists_synced he₀
    exact ⟨v, e, he, hv'.trans hv, hvp, hphys.trans hphys'.symm⟩
  case apart => exact hp.apart
  case core =>
    intro f hf
    obtain ⟨v, e₀, hi, he₀, hv, hphys⟩ := hp.core f hf
    obtain ⟨e, he, hv', hphys', -⟩ := hp.exists_synced he₀
    exact ⟨v, e, hi, he, hv'.trans hv, hphys'.trans hphys⟩
  case code =>
    intro v e he hc
    obtain ⟨e₀, he₀, hv₀, -, -, hro, -, hd⟩ := hp.synced_bits he
    refine ⟨hd hc, fun hv => ?_⟩
    rw [hro]
    exact (hp.code v e₀ he₀ hc).2 (hv₀ ▸ hv)
  case codeSlot => exact hp.codeSlot
  case filling => exact hp.filling
  case unused =>
    intro hno v c hin
    exact hp.unused hno v c (hp.synced_inSlot.mp hin)
  case miss => exact hp.miss
  case slot =>
    intro v e he hv hd
    obtain ⟨e₀, he₀, hv₀, hphys, -, -, hd₀, -⟩ := hp.synced_bits he
    rw [hphys]
    exact hp.slot v e₀ he₀ (hv₀ ▸ hv) (hd₀ hv ▸ hd)
  case once =>
    intro v v' c h h'
    exact hp.once v v' c (hp.synced_inSlot.mp h) (hp.synced_inSlot.mp h')
  case marks =>
    intro c hc
    refine (hp.marks c hc).trans (exists_congr fun v => ?_)
    exact hp.synced_inSlot.symm

theorem Paging.refill (hp : Paging s) {n : ℕ} {e : TranslationEntry}
    (he : s.space.pageTable[n]? = some e) (hv : e.valid = true)
    (hmiss : ∀ i, (s.tlb i).valid = true → (s.tlb i).virtualPage ≠ n) :
    Paging { s with tlb := Function.update s.tlb s.iter e, iter := s.iter + 1 } := by
  have hbits : s.bits n = some e.unused := by rw [Vm.bits, he, Option.map_some]
  have hvp : e.virtualPage = n := hp.self n e.unused hbits
  have hlt := (List.getElem?_eq_some_iff.mp he).1
  have hslot := update_cases s.tlb s.iter e
  constructor
  case toMapped => exact hp.toMapped
  case range =>
    intro i
    dsimp only
    obtain ⟨-, h⟩ | ⟨-, h⟩ := hslot i <;> rw [h]
    · omega
    · exact hp.range i
  case self => exact hp.self
  case frame => exact hp.frame
  case hit =>
    intro i hi
    dsimp only at hi ⊢
    obtain ⟨-, h⟩ | ⟨-, h⟩ := hslot i <;> rw [h] at hi ⊢
    · exact ⟨n, e.unused, hbits, hv, hvp, rfl⟩
    · exact hp.hit i hi
  case apart =>
    intro i j hi hj hij
    dsimp only at hi hj hij
    obtain ⟨hi', h⟩ | ⟨hi', h⟩ := hslot i <;> rw [h] at hi hij <;>
      obtain ⟨hj', h'⟩ | ⟨hj', h'⟩ := hslot j <;> rw [h'] at hj hij
    · rw [hi', hj']
    · exact absurd (hij.symm.trans hvp) (hmiss j hj)
    · exact absurd (hij.trans hvp) (hmiss i hi)
    · exact hp.apart i j hi hj hij
  case core => exact hp.core
  case code => exact hp.code
  case codeSlot =>
    intro i hi
    dsimp only at hi ⊢
    obtain ⟨-, h⟩ | ⟨-, h⟩ := hslot i <;> rw [h] at hi ⊢
    · rw [hvp] at hi
      exact hp.code n e.unused hbits (by exact_mod_cast hi)
    · exact hp.codeSlot i hi
  case filling => exact hp.filling.next rfl hv rfl (Or.inr (Or.inl rfl))
  case unused =>
    intro hno
    refine hp.unused fun hall => hno fun i => ?_
    dsimp only
    obtain ⟨-, h⟩ | ⟨-, h⟩ := hslot i <;> rw [h]
    · exact hv
    · exact hall i
  case miss =>
    intro i hi
    dsimp only at hi ⊢
    obtain ⟨-, h⟩ | ⟨-, h⟩ := hslot i <;> rw [h] at hi ⊢
    · rw [hv] at hi
      cases hi
    · exact hp.miss i hi
  case slot => exact hp.slot
  case once => exact hp.once
  case marks => exact hp.marks

/-- What holds when frame `f` has been found: the next TLB slot is about to be overwritten, and
the core map does not have the frame yet. -/
structure Between (s : Vm) (f : Fin numPhysPages) : Prop extends AddrSpace.Mapped s.space where
  range : s.tlbInRange
  self : ∀ v e, s.bits v = some e → e.virtualPage = v
  frame : ∀ v e, s.bits v = some e → e.valid = true →
    ∃ f : Fin numPhysPages, e.physicalPage = (f.val : ℕ)
  hit : ∀ i ≠ s.iter, (s.tlb i).valid = true → ∃ (v : ℕ) (e : TranslationEntry),
    s.bits v = some e ∧ e.valid = true ∧ (s.tlb i).virtualPage = v ∧
      (s.tlb i).physicalPage = e.physicalPage
  apart : ∀ i j, (s.tlb i).valid = true → (s.tlb j).valid = true →
    (s.tlb i).virtualPage = (s.tlb j).virtualPage → i = j
  core : ∀ f' ≠ f, s.memoryMap.bit f' = true → ∃ (v : ℕ) (e : TranslationEntry),
    s.space.ipt f' = v ∧ s.bits v = some e ∧ e.valid = true ∧ e.physicalPage = (f'.val : ℕ)
  code : ∀ v e, s.bits v = some e → v < s.space.codePages → e.dirty = false ∧
    (e.valid = true → e.readOnly = true)
  codeSlot : ∀ i, (s.tlb i).virtualPage < s.space.codePages →
    (s.tlb i).dirty = false ∧ ((s.tlb i).valid = true → (s.tlb i).readOnly = true)
  unused : ¬(∀ i, (s.tlb i).valid = true) → ∀ v c, ¬s.inSlot v c
  miss : ∀ i, (s.tlb i).valid = false → (s.tlb i).dirty = false
  slot : ∀ v e, s.bits v = some e → e.valid = false → e.dirty = true →
    ∃ c < numPhysPages * 2, e.physicalPage = (c : ℕ)
  once : ∀ v v' c, s.inSlot v c → s.inSlot v' c → v = v'
  marks : ∀ c < numPhysPages * 2, s.swapMap.bit c = true ↔ ∃ v, s.inSlot v c

theorem SameService.mapped (h : SameService s s') (hm : s.space.Mapped) : s'.space.Mapped :=
  ⟨h.entries.trans hm.entries, h.copied.trans hm.made⟩

theorem SameService.codePages (h : SameService s s') : s'.space.codePages = s.space.codePages := by
  rw [AddrSpace.codePages, AddrSpace.codePages, h.noffH1]

theorem inSlot_congr (h : ∀ v, s'.bits v = s.bits v) {v c : ℕ} :
    s'.inSlot v c ↔ s.inSlot v c := by
  rw [Vm.inSlot, Vm.inSlot, h]

theorem Paging.between_same (hp : Paging s) {f : Fin numPhysPages} (hs : SameService s s')
    (hb : ∀ v, s'.bits v = s.bits v) (hsw : s'.swapMap = s.swapMap)
    (hmap : ∀ f' : Fin numPhysPages, f' ≠ f → s'.memoryMap.bit f' = true →
      s.memoryMap.bit f' = true) : Between s' f := by
  constructor
  case toMapped => exact hs.mapped hp.toMapped
  case range =>
    intro i
    rw [hs.tlb, hs.length]
    exact hp.range i
  case self =>
    intro v e he
    rw [hb] at he
    exact hp.self v e he
  case frame =>
    intro v e he
    rw [hb] at he
    exact hp.frame v e he
  case hit =>
    intro i _ hi
    rw [hs.tlb] at hi ⊢
    obtain ⟨v, e, he, hrest⟩ := hp.hit i hi
    exact ⟨v, e, by rw [hb]; exact he, hrest⟩
  case apart =>
    rw [hs.tlb]
    exact hp.apart
  case core =>
    intro f' hf' hbit
    obtain ⟨v, e, hi, he, hrest⟩ := hp.core f' (hmap f' hf' hbit)
    exact ⟨v, e, by rw [hs.ipt]; exact hi, by rw [hb]; exact he, hrest⟩
  case code =>
    intro v e he hc
    rw [hb] at he
    rw [hs.codePages] at hc
    exact hp.code v e he hc
  case codeSlot =>
    rw [hs.tlb, hs.codePages]
    exact hp.codeSlot
  case unused =>
    rw [hs.tlb]
    intro hno v c
    rw [inSlot_congr hb]
    exact hp.unused hno v c
  case miss =>
    rw [hs.tlb]
    exact hp.miss
  case slot =>
    intro v e he
    rw [hb] at he
    exact hp.slot v e he
  case once =>
    intro v v' c
    rw [inSlot_congr hb, inSlot_congr hb]
    exact hp.once v v' c
  case marks =>
    intro c hc
    rw [hsw, hp.marks c hc]
    exact exists_congr fun v => (inSlot_congr hb).symm

theorem inSlot_swapped {w c : ℕ} {e' : TranslationEntry} (hw : s.bits w = some e')
    (hv : e'.valid = true) (hd : e'.dirty = true)
    (hb : ∀ v, s'.bits v = if v = w then some (e'.swappedTo c) else s.bits v) {v c' : ℕ} :
    s'.inSlot v c' ↔ (v = w ∧ c' = c) ∨ s.inSlot v c' := by
  by_cases hvw : v = w
  · subst hvw
    constructor
    · rintro ⟨e, he, -, -, hc⟩
      rw [hb, if_pos rfl] at he
      obtain rfl := Option.some.inj he
      have hcc : ((c : ℕ) : ℤ) = c' := hc
      exact Or.inl ⟨rfl, by exact_mod_cast hcc.symm⟩
    · rintro (⟨-, rfl⟩ | ⟨e, he, hno, -⟩)
      · exact ⟨e'.swappedTo c', by rw [hb, if_pos rfl], rfl, hd, rfl⟩
      · exact absurd hv (bits_absent he hw hno)
  · rw [Vm.inSlot, hb, if_neg hvw]
    exact ⟨Or.inr, fun h => h.resolve_left fun h => hvw h.1⟩

theorem Paging.between_swapped (hp : Paging s) {f : Fin numPhysPages} {w c g : ℕ}
    {e' : TranslationEntry} (hs : SameService s s')
    (hall : ∀ i, (s.tlb i).valid = true) (hslot : (s.tlb s.iter).virtualPage = w)
    (hw : s.bits w = some e') (hd : e'.dirty = true)
    (hg : (s.tlb s.iter).physicalPage = g) (hglt : g < numPhysPages) (hc : c < numPhysPages * 2)
    (hclear : s.swapMap.bit c = false)
    (hb : ∀ v, s'.bits v = if v = w then some (e'.swappedTo c) else s.bits v)
    (hmap : s'.memoryMap = s.memoryMap.clearBit g) (hsw : s'.swapMap = s.swapMap.setBit c) :
    Between s' f := by
  obtain ⟨v₀, e₀, he₀, hv, hvp, hphys⟩ := hp.hit s.iter (hall _)
  obtain rfl : w = v₀ := by exact_mod_cast hslot.symm.trans hvp
  rw [hw] at he₀
  obtain rfl := Option.some.inj he₀
  have hin : ∀ v c', s'.inSlot v c' ↔ (v = w ∧ c' = c) ∨ s.inSlot v c' :=
    fun _ _ => inSlot_swapped hw hv hd hb
  have hnew : ∀ v, ¬s.inSlot v c := by
    intro v hvc
    rw [(hp.marks c hc).mpr ⟨v, hvc⟩] at hclear
    cases hclear
  have hout : ∀ v e, s'.bits v = some e → (v = w ∧ e = e'.swappedTo c) ∨ s.bits v = some e := by
    intro v e he
    rw [hb] at he
    by_cases hvw : v = w
    · rw [if_pos hvw] at he
      exact Or.inl ⟨hvw, (Option.some.inj he).symm⟩
    · rw [if_neg hvw] at he
      exact Or.inr he
  constructor
  case toMapped => exact hs.mapped hp.toMapped
  case range =>
    intro i
    rw [hs.tlb, hs.length]
    exact hp.range i
  case self =>
    intro v e he
    obtain ⟨rfl, rfl⟩ | he := hout v e he
    · exact hp.self v e' hw
    · exact hp.self v e he
  case frame =>
    intro v e he hval
    obtain ⟨rfl, rfl⟩ | he := hout v e he
    · cases hval
    · exact hp.frame v e he hval
  case hit =>
    intro i hne hi
    rw [hs.tlb] at hi ⊢
    obtain ⟨v, e, he, hval, hvpi, hph⟩ := hp.hit i hi
    have hvw : v ≠ w := by
      rintro rfl
      rw [hs.iter] at hne
      exact hne (hp.apart i s.iter hi (hall _) (hvpi.trans hslot.symm))
    exact ⟨v, e, by rw [hb, if_neg hvw]; exact he, hval, hvpi, hph⟩
  case apart =>
    rw [hs.tlb]
    exact hp.apart
  case core =>
    intro f' _ hbit
    rw [hmap, BitMap.bit_clearBit _ hglt, Bool.and_eq_true, decide_eq_true_eq] at hbit
    obtain ⟨v, e, hi, he, hval, hph⟩ := hp.core f' hbit.2
    have hvw : v ≠ w := by
      rintro rfl
      rw [hw] at he
      obtain rfl := Option.some.inj he
      refine hbit.1 ?_
      exact_mod_cast (hph.symm.trans hphys.symm).trans hg
    exact ⟨v, e, by rw [hs.ipt]; exact hi, by rw [hb, if_neg hvw]; exact he, hval, hph⟩
  case code =>
    intro v e he hcode
    rw [hs.codePages] at hcode
    obtain ⟨rfl, rfl⟩ | he := hout v e he
    · rw [(hp.code v e' hw hcode).1] at hd
      cases hd
    · exact hp.code v e he hcode
  case codeSlot =>
    rw [hs.tlb, hs.codePages]
    exact hp.codeSlot
  case unused =>
    rw [hs.tlb]
    exact fun hno => absurd hall hno
  case miss =>
    rw [hs.tlb]
    exact hp.miss
  case slot =>
    intro v e he hval hde
    obtain ⟨rfl, rfl⟩ | he := hout v e he
    · exact ⟨c, hc, rfl⟩
    · exact hp.slot v e he hval hde
  case once =>
    intro v v' c' h h'
    obtain ⟨rfl, rfl⟩ | h := (hin v c').mp h
    · obtain ⟨rfl, -⟩ | h' := (hin v' c').mp h'
      · rfl
      · exact absurd h' (hnew v')
    · obtain ⟨rfl, rfl⟩ | h' := (hin v' c').mp h'
      · exact absurd h (hnew v)
      · exact hp.once v v' c' h h'
  case marks =>
    intro c' hc'
    rw [hsw, BitMap.bit_setBit _ hc, Bool.or_eq_true, decide_eq_true_eq, hp.marks c' hc']
    constructor
    · rintro (rfl | ⟨v, h⟩)
      · exact ⟨w, (hin w c').mpr (Or.inl ⟨rfl, rfl⟩)⟩
      · exact ⟨v, (hin v c').mpr (Or.inr h)⟩
    · rintro ⟨v, h⟩
      obtain ⟨-, rfl⟩ | h := (hin v c').mp h
      · exact Or.inl rfl
      · exact Or.inr ⟨v, h⟩

theorem lt_of_bits {v : ℕ} {e : TranslationEntry} (h : s.bits v = some e) :
    v < s.space.pageTable.length := by
  obtain ⟨e₀, he₀, -⟩ := bits_eq_some.mp h
  exact (List.getElem?_eq_some_iff.mp he₀).1

/-- The page that was waited for takes its frame, and leaves its slot if it had one. -/
theorem Between.install {f : Fin numPhysPages} (hb : Between s f) {n : ℕ} {e : TranslationEntry}
    (he : s.bits n = some e) (hv : e.valid = false) (hmapped : s'.space.Mapped)
    (hfill : Filling s'.toCore)
    (htlb : s'.tlb = Function.update s.tlb s.iter
      ⟨n, f.val, true, decide (n < s.space.codePages), true, e.dirty⟩)
    (hipt : s'.space.ipt = Function.update s.space.ipt f n)
    (hcode : s'.space.codePages = s.space.codePages)
    (hlen : s'.space.pageTable.length = s.space.pageTable.length)
    (hbits : ∀ v, s'.bits v = if v = n then
      some ⟨n, f.val, true, decide (n < s.space.codePages), false, e.dirty⟩ else s.bits v)
    (hmap : s'.memoryMap = s.memoryMap)
    (hsw : e.dirty = false ∧ s'.swapMap = s.swapMap ∨ e.dirty = true ∧ ∃ c < numPhysPages * 2,
      e.physicalPage = (c : ℕ) ∧ s'.swapMap = s.swapMap.clearBit c) : Paging s' := by
  have hout : ∀ v e', s'.bits v = some e' →
      (v = n ∧ e' = ⟨n, f.val, true, decide (n < s.space.codePages), false, e.dirty⟩) ∨
      v ≠ n ∧ s.bits v = some e' := by
    intro v e' he'
    rw [hbits] at he'
    by_cases hvn : v = n
    · rw [if_pos hvn] at he'
      exact Or.inl ⟨hvn, (Option.some.inj he').symm⟩
    · rw [if_neg hvn] at he'
      exact Or.inr ⟨hvn, he'⟩
  have hself : s'.bits n =
      some ⟨n, f.val, true, decide (n < s.space.codePages), false, e.dirty⟩ := by
    rw [hbits, if_pos rfl]
  have hkeep : ∀ v e', s.bits v = some e' → e'.valid = true → s'.bits v = some e' := by
    intro v e' he' hv'
    rw [hbits, if_neg]
    · exact he'
    · rintro rfl
      exact bits_absent he he' hv hv'
  have hslot : ∀ i, (i = s.iter ∧
      s'.tlb i = ⟨n, f.val, true, decide (n < s.space.codePages), true, e.dirty⟩) ∨
      i ≠ s.iter ∧ s'.tlb i = s.tlb i := by
    rw [htlb]
    exact update_cases s.tlb s.iter _
  have hmiss : ∀ i ≠ s.iter, (s.tlb i).valid = true → (s.tlb i).virtualPage ≠ n := by
    intro i hi hval hvp
    obtain ⟨v, e', he', hv', hvp', -⟩ := hb.hit i hi hval
    obtain rfl : v = n := by exact_mod_cast hvp'.symm.trans hvp
    exact bits_absent he he' hv hv'
  have hin : ∀ v c, s'.inSlot v c ↔ v ≠ n ∧ s.inSlot v c := by
    intro v c
    constructor
    · rintro ⟨e', he', hv', hrest⟩
      obtain ⟨-, rfl⟩ | ⟨hvn, he'⟩ := hout v e' he'
      · cases hv'
      · exact ⟨hvn, e', he', hv', hrest⟩
    · rintro ⟨hvn, e', he', hrest⟩
      exact ⟨e', by rw [hbits, if_neg hvn]; exact he', hrest⟩
  constructor
  case toMapped => exact hmapped
  case range =>
    intro i
    rw [hlen]
    obtain ⟨-, h⟩ | ⟨-, h⟩ := hslot i <;> rw [h]
    · have := lt_of_bits he
      dsimp only
      omega
    · exact hb.range i
  case self =>
    intro v e' he'
    obtain ⟨rfl, rfl⟩ | ⟨-, he'⟩ := hout v e' he'
    · rfl
    · exact hb.self v e' he'
  case frame =>
    intro v e' he' hv'
    obtain ⟨rfl, rfl⟩ | ⟨-, he'⟩ := hout v e' he'
    · exact ⟨f, rfl⟩
    · exact hb.frame v e' he' hv'
  case hit =>
    intro i hi
    obtain ⟨-, h⟩ | ⟨hne, h⟩ := hslot i <;> rw [h] at hi ⊢
    · exact ⟨n, _, hself, rfl, rfl, rfl⟩
    · obtain ⟨v, e', he', hv', hrest⟩ := hb.hit i hne hi
      exact ⟨v, e', hkeep v e' he' hv', hv', hrest⟩
  case apart =>
    intro i j hi hj hij
    obtain ⟨hi', h⟩ | ⟨hi', h⟩ := hslot i <;> rw [h] at hi hij <;>
      obtain ⟨hj', h'⟩ | ⟨hj', h'⟩ := hslot j <;> rw [h'] at hj hij
    · rw [hi', hj']
    · exact absurd hij.symm (hmiss j hj' hj)
    · exact absurd hij (hmiss i hi' hi)
    · exact hb.apart i j hi hj hij
  case core =>
    intro f' hbit
    rw [hmap] at hbit
    rw [hipt]
    by_cases hf : f' = f
    · rw [hf, Function.update_self]
      exact ⟨n, _, rfl, hself, rfl, rfl⟩
    · rw [Function.update_of_ne hf]
      obtain ⟨v, e', hi, he', hv', hph⟩ := hb.core f' hf hbit
      exact ⟨v, e', hi, hkeep v e' he' hv', hv', hph⟩
  case code =>
    intro v e' he' hc
    rw [hcode] at hc
    obtain ⟨rfl, rfl⟩ | ⟨-, he'⟩ := hout v e' he'
    · exact ⟨(hb.code v e he hc).1, fun _ => decide_eq_true hc⟩
    · exact hb.code v e' he' hc
  case codeSlot =>
    intro i hc
    rw [hcode] at hc
    obtain ⟨-, h⟩ | ⟨-, h⟩ := hslot i <;> rw [h] at hc ⊢
    · have hn : n < s.space.codePages := Nat.cast_lt.mp hc
      exact ⟨(hb.code n e he hn).1, fun _ => decide_eq_true hn⟩
    · exact hb.codeSlot i hc
  case filling => exact hfill
  case unused =>
    intro hno v c hvc
    refine hb.unused (fun hall => hno fun i => ?_) v c ((hin v c).mp hvc).2
    obtain ⟨-, h⟩ | ⟨-, h⟩ := hslot i <;> rw [h]
    exact hall i
  case miss =>
    intro i hi
    obtain ⟨-, h⟩ | ⟨-, h⟩ := hslot i <;> rw [h] at hi ⊢
    · cases hi
    · exact hb.miss i hi
  case slot =>
    intro v e' he' hv' hd'
    obtain ⟨-, rfl⟩ | ⟨-, he'⟩ := hout v e' he'
    · cases hv'
    · exact hb.slot v e' he' hv' hd'
  case once =>
    intro v v' c h h'
    exact hb.once v v' c ((hin v c).mp h).2 ((hin v' c).mp h').2
  case marks =>
    intro c hc
    simp only [hin]
    obtain ⟨hd, hsw⟩ | ⟨hd, c₀, hc₀, hphys, hsw⟩ := hsw
    · rw [hsw, hb.marks c hc]
      refine exists_congr fun v => ⟨fun h => ⟨?_, h⟩, And.right⟩
      rintro rfl
      obtain ⟨e', he', -, hd', -⟩ := h
      rw [he] at he'
      rw [← Option.some.inj he', hd] at hd'
      cases hd'
    · have hin₀ : s.inSlot n c₀ := ⟨e, he, hv, hd, hphys⟩
      rw [hsw, BitMap.bit_clearBit _ hc₀, Bool.and_eq_true, decide_eq_true_eq, hb.marks c hc]
      constructor
      · rintro ⟨hcc, v, h⟩
        refine ⟨v, ?_, h⟩
        rintro rfl
        obtain ⟨e', he', -, -, hphys'⟩ := h
        rw [he] at he'
        rw [← Option.some.inj he', hphys] at hphys'
        exact hcc (by exact_mod_cast hphys'.symm)
      · rintro ⟨v, hvn, h⟩
        refine ⟨?_, v, h⟩
        rintro rfl
        exact hvn (hb.once v n c h hin₀)

theorem Paging.found (hp : Paging s) {f : Fin numPhysPages} {writeBack : Bool}
    (h : FrameFound s writeBack f.val s') : Between s' f ∧
      (∀ v e, s.bits v = some e → e.valid = false → s'.bits v = some e) ∧
      ((∀ i < numPhysPages, s.memoryMap.bit i = true) ∨ s'.memoryMap = s.memoryMap ∨
        ∃ i < numPhysPages, (∀ j < i, s.memoryMap.bit j = true) ∧
          s'.memoryMap = s.memoryMap.setBit i) := by
  generalize hf : ((f.val : ℕ) : ℤ) = f₀ at h
  cases h with
  | @free i _ lt clear below same bits memoryMap swapMap =>
    obtain rfl : f.val = i := by exact_mod_cast hf
    refine ⟨hp.between_same same bits swapMap ?_, fun v e he _ => (bits v).trans he,
      Or.inr (Or.inr ⟨f.val, lt, below, memoryMap⟩)⟩
    intro f' hne hbit
    rw [memoryMap, BitMap.bit_setBit _ lt, Bool.or_eq_true, decide_eq_true_eq] at hbit
    exact hbit.resolve_left fun h => hne (Fin.ext h)
  | stolen full core victim same bits memoryMap swapMap =>
    refine ⟨hp.between_same same bits swapMap ?_, fun v e he _ => (bits v).trans he, Or.inl full⟩
    intro f' _ hbit
    rw [memoryMap] at hbit
    exact hbit
  | @swapped k v w c g e e' _ back full core victim same slot out dirty frame lt range find clear
      bits memoryMap swapMap =>
    have hall := hp.filling.full_tlb full
    refine ⟨hp.between_swapped same hall slot out dirty frame lt range clear bits memoryMap swapMap,
      fun v e he hv => ?_, Or.inl full⟩
    rw [bits, if_neg]
    · exact he
    · rintro rfl
      obtain ⟨v', e₀, he₀, hv₀, hvp, -⟩ := hp.hit s.iter (hall _)
      obtain rfl : v = v' := by exact_mod_cast slot.symm.trans hvp
      exact bits_absent he he₀ hv hv₀

theorem Paging.loads (hp : Paging s) {n : ℕ} {e : TranslationEntry} {f : Fin numPhysPages}
    {d : Bool} {s₁ : Vm} (he : s.space.pageTable[n]? = some e) (hv : e.valid = false)
    (h : Loads s s₁ s' n e f d) : Paging s' := by
  obtain ⟨hb, hkeep, hfill⟩ := hp.sync.found h.found
  have hsame := h.found.same
  have hcode : s₁.space.codePages = s.space.codePages := hsame.codePages
  obtain ⟨hval, hphys, -⟩ := syncEntry_valid s.tlb n e
  have he₀ : Vm.bits { s with space := s.space.synced s.tlb } n =
      some (syncEntry s.tlb n e).unused := by
    rw [Vm.bits, synced_getElem?, he, Option.map_some, Option.map_some]
  have he₁ := hkeep n _ he₀ (hval.trans hv)
  have hd : d = (syncEntry s.tlb n e).unused.dirty := by
    rw [h.dirty]
    by_cases hn : s.space.codePages ≤ n
    · rw [decide_eq_true hn, Bool.true_and]
      rfl
    · have := (hp.sync.code n _ he₀ (not_le.mp hn)).1
      rw [decide_eq_false hn, Bool.false_and, this]
  subst hd
  have htlb : s₁.tlb = s.tlb := hsame.tlb
  have hiter : s₁.iter = s.iter := hsame.iter
  refine hb.install he₁ (hval.trans hv)
    ⟨h.entries.trans hp.entries, h.copied.trans hp.made⟩ ?_ ?_ ?_ ?_ ?_ ?_ h.memoryMap ?_
  · refine hp.filling.next h.tlb rfl h.iter ?_
    rw [show s'.toCore.memoryMap = s₁.memoryMap from h.memoryMap]
    exact hfill
  · rw [htlb, hiter, hcode]
    exact h.tlb
  · rw [show s₁.space.ipt = s.space.ipt from hsame.ipt]
    exact h.ipt
  · rw [hcode, AddrSpace.codePages, h.noffH1, AddrSpace.codePages]
  · rw [h.length, hsame.length]
    exact List.length_mapIdx.symm
  · intro v
    rw [hcode]
    exact h.bits v
  · obtain h | ⟨hd, c, hc, hcampo, hsw⟩ := h.swapMap
    · exact Or.inl h
    · exact Or.inr ⟨hd, c, hc, hphys.trans hcampo, hsw⟩

end Nachos
