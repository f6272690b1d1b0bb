import Nachos.MipsArchitecture

/-! Loads and stores against the architecture, for little-endian memory. The four instructions
for unaligned words are written as on a big-endian machine: at a word address `LWL` and `SWL`
move the whole word where the architecture moves one byte, and `LWR` and `SWR` one byte where
the architecture moves the word. -/
namespace Nachos

def Mmu.locate (mmu : Mmu) (virtAddr : Word) (size : ℕ) (writing : Bool) : Option ℕ :=
  match translate mmu virtAddr size writing with
  | .ok (.ok (pa, _)) => some pa
  | _ => none

def Mmu.find (mmu : Mmu) (vpn : ℕ) : Option TranslationEntry :=
  match mmu with
  | .pageTable entries => entries[vpn]?.filter (·.valid)
  | .tlb entries => (entries.lookup vpn).map entries

structure TranslationEntry.SamePage (e e' : TranslationEntry) : Prop where
  virtualPage : e'.virtualPage = e.virtualPage
  physicalPage : e'.physicalPage = e.physicalPage
  valid : e'.valid = e.valid
  readOnly : e'.readOnly = e.readOnly

def Mmu.Same : Mmu → Mmu → Prop
  | .tlb t, .tlb t' => ∀ i, (t i).SamePage (t' i)
  | .pageTable l, .pageTable l' =>
    ∀ (i : ℕ) (e : TranslationEntry), l[i]? = some e → ∃ e', l'[i]? = some e' ∧ e.SamePage e'
  | _, _ => False

structure TranslationEntry.Reaches (e : TranslationEntry) (offset size : ℕ) (writing : Bool)
    (pa : ℕ) : Prop where
  allowed : (e.readOnly && writing) = false
  frame : ¬(e.physicalPage < 0 ∨ numPhysPages ≤ e.physicalPage)
  address : e.physicalPage.toNat * pageSize + offset = pa
  fits : pa + size ≤ memorySize

section mapping
variable {e e' : TranslationEntry} {mmu mmu' : Mmu} {virtAddr : Word} {offset size pa : ℕ}
  {writing : Bool}

theorem TranslationEntry.SamePage.refl (e : TranslationEntry) : e.SamePage e := ⟨rfl, rfl, rfl, rfl⟩

theorem TranslationEntry.samePage_touch (e : TranslationEntry) (writing : Bool) :
    e.SamePage (e.touch writing) := ⟨rfl, rfl, rfl, rfl⟩

theorem TranslationEntry.access_eq_ok :
    e.access offset size writing = .ok (.ok (pa, e')) ↔
      e.Reaches offset size writing pa ∧ e' = e.touch writing := by
  unfold TranslationEntry.access
  constructor
  · intro h
    by_cases hro : (e.readOnly && writing) = true
    · rw [if_pos hro] at h
      cases h
    · by_cases hf : e.physicalPage < 0 ∨ numPhysPages ≤ e.physicalPage
      · rw [if_neg hro, if_pos hf] at h
        cases h
      · rw [if_neg hro, if_neg hf] at h
        dsimp only at h
        by_cases hfit : e.physicalPage.toNat * pageSize + offset + size ≤ memorySize
        · rw [if_pos hfit] at h
          obtain ⟨rfl, rfl⟩ := Prod.mk.inj (Except.ok.inj (Except.ok.inj h))
          exact ⟨⟨by simpa using hro, hf, rfl, hfit⟩, rfl⟩
        · rw [if_neg hfit] at h
          cases h
  · rintro ⟨⟨hro, hf, rfl, hfit⟩, rfl⟩
    rw [if_neg (by simp [hro]), if_neg hf]
    exact if_pos hfit

theorem TranslationEntry.SamePage.reaches (h : e.SamePage e')
    (hr : e.Reaches offset size writing pa) : e'.Reaches offset size writing pa :=
  ⟨h.readOnly ▸ hr.allowed, h.physicalPage ▸ hr.frame, h.physicalPage ▸ hr.address, hr.fits⟩

theorem Tlb.lookup_same {t t' : Tlb} (h : ∀ i, (t i).SamePage (t' i)) (vpn : ℤ) :
    t'.lookup vpn = t.lookup vpn := by
  unfold Tlb.lookup
  congr 1
  funext i
  rw [(h i).valid, (h i).virtualPage]

theorem Mmu.Same.find (h : mmu.Same mmu') {vpn : ℕ} (hf : mmu.find vpn = some e) :
    ∃ e', mmu'.find vpn = some e' ∧ e.SamePage e' := by
  cases mmu with
  | tlb t =>
    cases mmu' with
    | pageTable l => exact h.elim
    | tlb t' =>
      obtain ⟨i, hi, rfl⟩ := Option.map_eq_some_iff.mp hf
      refine ⟨t' i, ?_, h i⟩
      rw [Mmu.find, Tlb.lookup_same h, hi]
      rfl
  | pageTable l =>
    cases mmu' with
    | tlb t => exact h.elim
    | pageTable l' =>
      obtain ⟨he, hv⟩ := Option.filter_eq_some_iff.mp hf
      obtain ⟨e', he', hs⟩ := h vpn e he
      exact ⟨e', Option.filter_eq_some_iff.mpr ⟨he', by rw [hs.valid]; exact hv⟩, hs⟩

theorem translate_eq_ok (h : translate mmu virtAddr size writing = .ok (.ok (pa, mmu'))) :
    misaligned virtAddr size = false ∧ mmu.Same mmu' ∧
      ∃ e, mmu.find (virtAddr.toNat / pageSize) = some e ∧
        e.Reaches (virtAddr.toNat % pageSize) size writing pa := by
  unfold translate at h
  by_cases ha : misaligned virtAddr size = true
  · rw [if_pos ha] at h
    cases h
  · rw [if_neg ha] at h
    refine ⟨by simpa using ha, ?_⟩
    cases mmu with
    | tlb t =>
      dsimp only at h
      cases hl : t.lookup (virtAddr.toNat / pageSize : ℕ) with
      | none =>
        rw [hl] at h
        cases h
      | some i =>
        rw [hl] at h
        dsimp only at h
        cases hacc : (t i).access (virtAddr.toNat % pageSize) size writing with
        | error tr => rw [hacc] at h; cases h
        | ok r =>
          rw [hacc] at h
          cases r with
          | error x => cases h
          | ok r =>
            obtain ⟨pa', e'⟩ := r
            obtain ⟨rfl, rfl⟩ := Prod.mk.inj (Except.ok.inj (Except.ok.inj h))
            obtain ⟨hr, rfl⟩ := TranslationEntry.access_eq_ok.mp hacc
            refine ⟨fun j => ?_, t i, by rw [Mmu.find, hl]; rfl, hr⟩
            by_cases hj : j = i
            · subst hj
              rw [Function.update_self]
              exact TranslationEntry.samePage_touch _ _
            · rw [Function.update_of_ne hj]
              exact TranslationEntry.SamePage.refl _
    | pageTable l =>
      dsimp only at h
      cases hl : l[virtAddr.toNat / pageSize]? with
      | none =>
        rw [hl] at h
        cases h
      | some e =>
        rw [hl] at h
        dsimp only at h
        by_cases hv : e.valid = true
        · rw [if_neg (by simp [hv])] at h
          cases hacc : e.access (virtAddr.toNat % pageSize) size writing with
          | error tr => rw [hacc] at h; cases h
          | ok r =>
            rw [hacc] at h
            cases r with
            | error x => cases h
            | ok r =>
              obtain ⟨pa', e'⟩ := r
              obtain ⟨rfl, rfl⟩ := Prod.mk.inj (Except.ok.inj (Except.ok.inj h))
              obtain ⟨hr, rfl⟩ := TranslationEntry.access_eq_ok.mp hacc
              refine ⟨fun j e' he' => ?_, e, Option.filter_eq_some_iff.mpr ⟨hl, hv⟩, hr⟩
              by_cases hj : virtAddr.toNat / pageSize = j
              · subst hj
                obtain rfl := Option.some.inj (hl.symm.trans he')
                refine ⟨_, ?_, TranslationEntry.samePage_touch e writing⟩
                rw [List.getElem?_set_self (List.getElem?_eq_some_iff.mp hl).1]
              · exact ⟨e', by rw [List.getElem?_set_ne hj]; exact he', .refl e'⟩
        · rw [if_pos (by simpa using hv)] at h
          cases h

/-- And so does any translation that agrees. -/
theorem translate_of_find (ha : misaligned virtAddr size = false)
    (hf : mmu.find (virtAddr.toNat / pageSize) = some e)
    (hr : e.Reaches (virtAddr.toNat % pageSize) size writing pa) :
    ∃ mmu', translate mmu virtAddr size writing = .ok (.ok (pa, mmu')) := by
  have hacc := TranslationEntry.access_eq_ok.mpr ⟨hr, rfl⟩
  unfold translate
  rw [if_neg (by simp [ha])]
  cases mmu with
  | tlb t =>
    obtain ⟨i, hi, rfl⟩ := Option.map_eq_some_iff.mp hf
    dsimp only
    rw [hi]
    dsimp only
    rw [hacc]
    exact ⟨_, rfl⟩
  | pageTable l =>
    obtain ⟨he, hv⟩ := Option.filter_eq_some_iff.mp hf
    dsimp only
    rw [he]
    dsimp only
    rw [if_neg (by simp [hv]), hacc]
    exact ⟨_, rfl⟩

theorem locate_eq_some : mmu.locate virtAddr size writing = some pa ↔
    misaligned virtAddr size = false ∧ ∃ e, mmu.find (virtAddr.toNat / pageSize) = some e ∧
      e.Reaches (virtAddr.toNat % pageSize) size writing pa := by
  constructor
  · intro h
    unfold Mmu.locate at h
    split at h
    case h_1 pa' mmu' ht =>
      obtain rfl := Option.some.inj h
      obtain ⟨ha, -, hf⟩ := translate_eq_ok ht
      exact ⟨ha, hf⟩
    case h_2 => cases h
  · rintro ⟨ha, e, hf, hr⟩
    obtain ⟨mmu', ht⟩ := translate_of_find ha hf hr
    rw [Mmu.locate, ht]

theorem Mmu.Same.locate (h : mmu.Same mmu') (hl : mmu.locate virtAddr size writing = some pa) :
    mmu'.locate virtAddr size writing = some pa := by
  obtain ⟨ha, e, hf, hr⟩ := locate_eq_some.mp hl
  obtain ⟨e', hf', hs⟩ := h.find hf
  exact locate_eq_some.mpr ⟨ha, e', hf', hs.reaches hr⟩

theorem locate_read (h : mmu.locate virtAddr size true = some pa) :
    mmu.locate virtAddr size false = some pa := by
  obtain ⟨ha, e, hf, hr⟩ := locate_eq_some.mp h
  exact locate_eq_some.mpr ⟨ha, e, hf, by simp, hr.frame, hr.address, hr.fits⟩

end mapping

section access
variable {m m₁ : Machine} {addr word : Word} {size pa : ℕ} {writing : Bool}

theorem translateOrRaise_eq (h : m.mmu.locate addr size writing = some pa) :
    ∃ mmu', m.mmu.Same mmu' ∧
      translateOrRaise addr size writing m = .ok pa { m with mmu := mmu' } := by
  obtain ⟨ha, e, hf, hr⟩ := locate_eq_some.mp h
  obtain ⟨mmu', ht⟩ := translate_of_find ha hf hr
  exact ⟨mmu', (translate_eq_ok ht).2.1, translateOrRaise_ok ht⟩

theorem readMem_eq (h : m.mmu.locate addr size false = some pa) {v : Word}
    (hv : m.mainMemory.read pa size = some v) :
    ∃ mmu', m.mmu.Same mmu' ∧ readMem addr size m = .ok v { m with mmu := mmu' } := by
  obtain ⟨mmu', hs, ht⟩ := translateOrRaise_eq h
  refine ⟨mmu', hs, ?_⟩
  simp only [readMem, EStateM.apply_bind, ht, EStateM.apply_get, hv]
  rfl

theorem writeMem_eq (h : m.mmu.locate addr size true = some pa) (v : Word)
    (hsize : size = 1 ∨ size = 2 ∨ size = 4) :
    ∃ mmu', m.mmu.Same mmu' ∧ writeMem addr size v m =
      .ok () { m with mmu := mmu', mainMemory := m.mainMemory.store pa size v } := by
  obtain ⟨mmu', hs, ht⟩ := translateOrRaise_eq h
  refine ⟨mmu', hs, ?_⟩
  simp only [writeMem, EStateM.apply_bind, ht, EStateM.apply_get]
  obtain rfl | rfl | rfl := hsize <;> rfl

theorem translateOrRaise_inv (h : translateOrRaise addr size writing m = .ok pa m₁) :
    ∃ mmu', translate m.mmu addr size writing = .ok (.ok (pa, mmu')) ∧
      m₁ = { m with mmu := mmu' } := by
  unfold translateOrRaise at h
  simp only [EStateM.apply_bind, EStateM.apply_get] at h
  cases ht : translate m.mmu addr size writing with
  | error t =>
    rw [ht] at h
    cases h
  | ok r =>
    rw [ht] at h
    cases r with
    | error e =>
      obtain ⟨_, _, _, hfalse⟩ := sim_raise (y := raiseException e addr)
        (Q := fun _ _ _ _ => False) (n := m) pa m₁ h
      exact hfalse.elim
    | ok p =>
      obtain ⟨pa, mmu⟩ := p
      obtain ⟨rfl, rfl⟩ := EStateM.Result.ok.inj h
      exact ⟨mmu, rfl, rfl⟩

theorem fetch_same (hfetch : fetch m = .ok word m₁) :
    m.mmu.Same m₁.mmu ∧ m₁.mainMemory = m.mainMemory := by
  obtain ⟨pc, m₂, hpc, hread⟩ := EStateM.bind_eq_ok hfetch
  rw [readRegister_ok (by decide)] at hpc
  obtain ⟨-, rfl⟩ := EStateM.Result.ok.inj hpc
  obtain ⟨pa, m₃, ht, hread⟩ := EStateM.bind_eq_ok hread
  obtain ⟨mmu', htr, rfl⟩ := translateOrRaise_inv ht
  have hs := (translate_eq_ok htr).2.1
  simp only [EStateM.apply_bind, EStateM.apply_get] at hread
  cases hr : m.mainMemory.read pa 4 with
  | none =>
    rw [hr] at hread
    cases hread
  | some v =>
    rw [hr] at hread
    obtain ⟨-, rfl⟩ := EStateM.Result.ok.inj hread
    exact ⟨hs, rfl⟩

end access

def OpCode.IsLoad : OpCode → Prop
  | .lb | .lbu | .lh | .lhu | .lw | .lwl | .lwr => True
  | _ => False

def OpCode.IsStore : OpCode → Prop
  | .sb | .sh | .sw | .swl | .swr => True
  | _ => False

instance : DecidablePred OpCode.IsLoad := fun op => by
  cases op <;> first | exact isTrue trivial | exact isFalse id

instance : DecidablePred OpCode.IsStore := fun op => by
  cases op <;> first | exact isTrue trivial | exact isFalse id

theorem OpCode.IsLoad.format {op : OpCode} (h : op.IsLoad) : op.format = .ifmt := by
  cases op <;> first | rfl | exact h.elim

theorem OpCode.IsStore.format {op : OpCode} (h : op.IsStore) : op.format = .ifmt := by
  cases op <;> first | rfl | exact h.elim

namespace Arch

def byte (v : Word) (j : ℕ) : Byte := v.extractLsb' (8 * j) 8

/-- The word with these bytes, the first the least significant. -/
def ofBytes (f : ℕ → Byte) : Word := f 3 ++ f 2 ++ f 1 ++ f 0

/-- The size of the access; the unaligned forms stay within one word. -/
def accessSize : OpCode → ℕ
  | .lb | .lbu | .sb => 1
  | .lh | .lhu | .sh => 2
  | _ => 4

/-- What a load from `addr`, found at `pa`, leaves in its register, which held `old`. `LWL` fills
the register from its most significant byte down, towards lower addresses, `LWR` from its least
significant byte up, both to the end of the word. -/
def loaded (op : OpCode) (addr : Word) (mem : Memory) (pa : ℕ) (old : Word) : Word :=
  match op with
  | .lb => (mem pa).signExtend 32
  | .lbu => (mem pa).zeroExtend 32
  | .lh => (mem (pa + 1) ++ mem pa : BitVec 16).signExtend 32
  | .lhu => (mem (pa + 1) ++ mem pa : BitVec 16).zeroExtend 32
  | .lwl => ofBytes fun j => if 3 - addr.toNat % 4 ≤ j then mem (pa + j - 3) else byte old j
  | .lwr => ofBytes fun j => if j ≤ 3 - addr.toNat % 4 then mem (pa + j) else byte old j
  | _ => ofBytes fun j => mem (pa + j)

/-- What a store of `v` to `addr`, found at `pa`, leaves in memory. -/
def stored (op : OpCode) (addr : Word) (mem : Memory) (pa : ℕ) (v : Word) : Memory := fun a =>
  match op with
  | .sb => if a = pa then byte v 0 else mem a
  | .sh => if pa ≤ a ∧ a < pa + 2 then byte v (a - pa) else mem a
  | .sw => if pa ≤ a ∧ a < pa + 4 then byte v (a - pa) else mem a
  | .swl => if pa ≤ a + addr.toNat % 4 ∧ a ≤ pa then byte v (a + 3 - pa) else mem a
  | .swr => if pa ≤ a ∧ a + addr.toNat % 4 < pa + 4 then byte v (a - pa) else mem a
  | _ => mem a

end Arch

section bytes
variable (v : Word) (f : ℕ → Byte)

theorem byte_ofBytes {j : ℕ} (hj : j < 4) : Arch.byte (Arch.ofBytes f) j = f j := by
  have hread : Memory.read f 0 4 = some (Arch.ofBytes f) := rfl
  exact (Memory.extract_read hread hj).trans (by rw [Nat.zero_add])

theorem word_ext {v w : Word} (h : ∀ j < 4, Arch.byte v j = Arch.byte w j) : v = w := by
  apply BitVec.eq_of_getLsbD_eq
  intro k hk
  have hb := congrArg (fun b : Byte => b.getLsbD (k % 8)) (h (k / 8) (by omega))
  simpa [Arch.byte, BitVec.getLsbD_extractLsb', Nat.mod_lt, Nat.div_add_mod] using hb

theorem ofBytes_inj {f g : ℕ → Byte} :
    Arch.ofBytes f = Arch.ofBytes g ↔ ∀ j < 4, f j = g j := by
  constructor
  · intro h j hj
    rw [← byte_ofBytes f hj, h, byte_ofBytes g hj]
  · intro h
    apply word_ext
    intro j hj
    rw [byte_ofBytes f hj, byte_ofBytes g hj, h j hj]

end bytes

section values

theorem and_bit_ne_zero (x : Word) (n : ℕ) (hn : n < 32) :
    x &&& BitVec.twoPow 32 n ≠ 0 ↔ x.getLsbD n = true := by
  rw [BitVec.and_twoPow]
  cases x.getLsbD n with
  | true =>
    have h : (BitVec.twoPow 32 n).getLsbD n = true := by simp [hn]
    refine iff_of_true (fun h0 => ?_) rfl
    rw [if_pos rfl] at h0
    rw [h0] at h
    simp at h
  | false => simp

theorem sign_fill (x high low : Word) {n : ℕ} (hn : 0 < n) (hle : n ≤ 32)
    (hhigh : ∀ k < 32, high.getLsbD k = decide (n ≤ k))
    (hlow : ∀ k < 32, low.getLsbD k = decide (k < n)) :
    (if x &&& BitVec.twoPow 32 (n - 1) ≠ 0 then x ||| high else x &&& low) =
      (x.setWidth n).signExtend 32 := by
  have hmsb : (x.setWidth n).msb = x.getLsbD (n - 1) := by
    rw [BitVec.msb_eq_getLsbD_last, BitVec.getLsbD_setWidth]
    simp [show n - 1 < n by omega]
  apply BitVec.eq_of_getLsbD_eq
  intro k hk
  simp only [and_bit_ne_zero x (n - 1) (by omega)]
  rw [BitVec.getLsbD_signExtend, hmsb, BitVec.getLsbD_setWidth]
  by_cases hs : x.getLsbD (n - 1) = true <;> by_cases hk' : k < n
  · rw [if_pos hs, if_pos hk', BitVec.getLsbD_or, hhigh k hk]
    simp [hk, hk', show ¬n ≤ k by omega]
  · rw [if_pos hs, if_neg hk', BitVec.getLsbD_or, hhigh k hk]
    simp [hk, hs, show n ≤ k by omega]
  · rw [if_neg hs, if_pos hk', BitVec.getLsbD_and, hlow k hk]
    simp [hk, hk']
  · rw [if_neg hs, if_neg hk', BitVec.getLsbD_and, hlow k hk]
    simp [hk, hk', hs]

theorem setWidth_signExtend {n : ℕ} (b : BitVec n) (hn : n ≤ 32) :
    (b.signExtend 32).setWidth n = b := by
  rw [← BitVec.signExtend_eq_setWidth_of_le _ hn]
  ext k hk
  simp [BitVec.getElem_signExtend, hk, show k < 32 by omega]

theorem lb_value (b : Byte) :
    (if b.signExtend 32 &&& (0x80 : Word) ≠ 0 then b.signExtend 32 ||| 0xffffff00
      else b.signExtend 32 &&& 0xff) = b.signExtend 32 := by
  have h := sign_fill (b.signExtend 32) 0xffffff00 0xff (n := 8) (by decide)
    (by decide) (by decide) (by decide)
  rw [setWidth_signExtend b (by decide)] at h
  exact h

theorem lbu_value (b : Byte) : b.signExtend 32 &&& (0xff : Word) = b.zeroExtend 32 := by
  have h := and_mask_eq (b.signExtend 32) 8 (by decide)
  rw [setWidth_signExtend b (by decide)] at h
  exact h

theorem lh_value (x : BitVec 16) :
    (if x.zeroExtend 32 &&& (0x8000 : Word) ≠ 0 then x.zeroExtend 32 ||| 0xffff0000
      else x.zeroExtend 32 &&& 0xffff) = x.signExtend 32 := by
  have h := sign_fill (x.zeroExtend 32) 0xffff0000 0xffff (n := 16) (by decide)
    (by decide) (by decide) (by decide)
  rw [BitVec.zeroExtend, BitVec.setWidth_setWidth_of_le _ (by decide), BitVec.setWidth_eq] at h
  exact h

theorem lhu_value (x : BitVec 16) : x.zeroExtend 32 &&& (0xffff : Word) = x.zeroExtend 32 := by
  have h := and_mask_eq (x.zeroExtend 32) 16 (by decide)
  have hx : (x.zeroExtend 32).setWidth 16 = x := by
    rw [BitVec.zeroExtend, BitVec.setWidth_setWidth_of_le _ (by decide), BitVec.setWidth_eq]
  rw [hx] at h
  exact h

theorem byte_or (v w : Word) (j : ℕ) : Arch.byte (v ||| w) j = Arch.byte v j ||| Arch.byte w j := by
  simp [Arch.byte, BitVec.extractLsb'_or]

theorem byte_and (v w : Word) (j : ℕ) :
    Arch.byte (v &&& w) j = Arch.byte v j &&& Arch.byte w j := by
  simp [Arch.byte, BitVec.extractLsb'_and]

theorem byte_sshiftRight_24 (v : Word) : Arch.byte (v.sshiftRight 24) 0 = Arch.byte v 3 := by
  apply BitVec.eq_of_getLsbD_eq
  intro k hk
  simp only [Arch.byte, BitVec.getLsbD_extractLsb', BitVec.getLsbD_sshiftRight]
  simp [show 24 + k < 32 by omega, show ¬32 ≤ k by omega]

theorem byte_shiftLeft_24 (v : Word) {j : ℕ} (hj : j < 4) :
    Arch.byte (v <<< 24) j = if j = 3 then Arch.byte v 0 else 0 := by
  ext k hk
  interval_cases j <;> simp [Arch.byte, show k < 32 by omega, show 8 + k < 32 by omega] <;> omega

theorem byte_high_mask {j : ℕ} (hj : j < 4) :
    Arch.byte 0xffffff00 j = if j = 0 then 0 else BitVec.allOnes 8 := by
  revert j
  decide

theorem byte_low_mask {j : ℕ} (hj : j < 4) :
    Arch.byte 0xff j = if j = 0 then BitVec.allOnes 8 else 0 := by
  revert j
  decide

theorem byte_low_three {j : ℕ} (hj : j < 4) :
    Arch.byte 0xffffff j = if j = 3 then 0 else BitVec.allOnes 8 := by
  revert j
  decide

theorem lwr_value (old : Word) (f : ℕ → Byte) :
    ((old &&& 0xffffff00) ||| (((Arch.ofBytes f).sshiftRight 24) &&& 0xff) : Word) =
      Arch.ofBytes fun j => if j = 0 then f 3 else Arch.byte old j := by
  apply word_ext
  intro j hj
  rw [byte_ofBytes _ hj, byte_or, byte_and, byte_and, byte_high_mask hj, byte_low_mask hj]
  obtain rfl | h : j = 0 ∨ j ≠ 0 := by omega
  · rw [byte_sshiftRight_24, byte_ofBytes f (by decide), if_pos rfl, if_pos rfl, if_pos rfl,
      BitVec.and_allOnes]
    simp
  · rw [if_neg h, if_neg h, if_neg h, BitVec.and_allOnes]
    simp

theorem swr_value (old v : Word) :
    ((old &&& (0xffffff : Word)) ||| (v <<< 24) : Word) =
      Arch.ofBytes fun j => if j = 3 then Arch.byte v 0 else Arch.byte old j := by
  apply word_ext
  intro j hj
  rw [byte_ofBytes _ hj, byte_or, byte_and, byte_low_three hj, byte_shiftLeft_24 v hj]
  by_cases h : j = 3
  · rw [if_pos h, if_pos h, if_pos h]
    simp
  · rw [if_neg h, if_neg h, if_neg h, BitVec.and_allOnes]
    simp

end values

/-- The value that `OneInstruction` gives a load at a word address instead. -/
def loadValue (op : OpCode) (addr : Word) (mem : Memory) (pa : ℕ) (old : Word) : Word :=
  match op with
  | .lwl => Arch.ofBytes fun j => mem (pa + j)
  | .lwr => Arch.ofBytes fun j => if j = 0 then mem (pa + 3) else Arch.byte old j
  | _ => Arch.loaded op addr mem pa old

/-- The memory that `OneInstruction` leaves after a store at a word address instead. -/
def storeMemory (op : OpCode) (addr : Word) (mem : Memory) (pa : ℕ) (v : Word) : Memory :=
  match op with
  | .swl => mem.store pa 4 v
  | .swr => mem.store pa 4 (Arch.ofBytes fun j => if j = 3 then Arch.byte v 0 else mem (pa + j))
  | _ => Arch.stored op addr mem pa v

def landed (m : Machine) (k : ℕ) : Word :=
  if k = (m.reg loadReg).toNat then m.reg loadValueReg else m.reg k

section run
variable {m : Machine} {i : Instruction} {word : Word} {pa : ℕ} (pcAfter : Word)

theorem pendingValue_eq {r : ℕ} (hr : r < 32) : pendingValue r m = .ok (landed m r) m := by
  have hiff : m.reg loadReg = BitVec.ofNat 32 r ↔ r = (m.reg loadReg).toNat := by
    rw [← BitVec.toNat_inj, BitVec.toNat_ofNat, Nat.mod_eq_of_lt (by omega)]
    exact eq_comm
  simp only [pendingValue, EStateM.apply_bind, readRegister_ok (show loadReg < 40 by decide),
    EStateM.apply_ite, readRegister_ok (show loadValueReg < 40 by decide),
    readRegister_ok (show r < 40 by omega), landed, hiff]
  split_ifs <;> rfl

theorem effectiveAddress_eq (hrs : i.rs < 32) :
    effectiveAddress i m = .ok (m.reg i.rs + i.extra) m := by
  rw [effectiveAddress, EStateM.apply_bind, readRegister_ok (show i.rs < 40 by omega)]
  rfl

theorem assertAligned_eq {a : Word} (h : a.toNat % 4 = 0) : assertAligned a m = .ok () m := by
  rw [assertAligned, if_pos h]
  rfl

theorem locate_aligned {a : Word} {size : ℕ} {writing : Bool}
    (h : m.mmu.locate a size writing = some pa) :
    (size = 2 → a.toNat % 2 = 0) ∧ (size = 4 → a.toNat % 4 = 0) := by
  obtain ⟨ha, -⟩ := locate_eq_some.mp h
  constructor
  · rintro rfl
    simpa [misaligned] using ha
  · rintro rfl
    simpa [misaligned] using ha

theorem read_four (mem : Memory) (pa : ℕ) :
    mem.read pa 4 = some (Arch.ofBytes fun j => mem (pa + j)) := rfl

theorem readLoad_eq {a v : Word} {size : ℕ} (hpa : m.mmu.locate a size false = some pa)
    (hv : m.mainMemory.read pa size = some v) (f : Word → Word) :
    ∃ mmu', (do
        let value ← readMem a size
        load i pcAfter (f value)) m =
      .ok { pcAfter := pcAfter, nextLoadReg := BitVec.ofNat 32 i.rt, nextLoadValue := f v }
        { m with mmu := mmu' } := by
  obtain ⟨mmu', -, hread⟩ := readMem_eq hpa hv
  refine ⟨mmu', ?_⟩
  rw [EStateM.apply_bind, hread]
  rfl

theorem readMerge_eq {a v : Word} (hpa : m.mmu.locate a 4 false = some pa)
    (hv : m.mainMemory.read pa 4 = some v) (hrt : i.rt < 32) (f : Word → Word → Word) :
    ∃ mmu', (do
        assertAligned a
        let value ← readMem a 4
        let old ← pendingValue i.rt
        load i pcAfter (f value old)) m =
      .ok { pcAfter := pcAfter, nextLoadReg := BitVec.ofNat 32 i.rt,
            nextLoadValue := f v (landed m i.rt) } { m with mmu := mmu' } := by
  obtain ⟨mmu', -, hread⟩ := readMem_eq hpa hv
  refine ⟨mmu', ?_⟩
  simp only [EStateM.apply_bind, assertAligned_eq ((locate_aligned hpa).2 rfl), hread,
    pendingValue_eq hrt]
  rfl

theorem execute_load (hload : i.opCode.IsLoad) (hrs : i.rs = Arch.rs word)
    (hrt : i.rt = Arch.rt word) (hextra : i.extra = Arch.signed word)
    (hpa : m.mmu.locate (m.reg (Arch.rs word) + Arch.signed word) (Arch.accessSize i.opCode) false =
      some pa) :
    ∃ mmu', execute i pcAfter m =
      .ok { pcAfter := pcAfter, nextLoadReg := BitVec.ofNat 32 (Arch.rt word),
            nextLoadValue := loadValue i.opCode (m.reg (Arch.rs word) + Arch.signed word)
              m.mainMemory pa (landed m (Arch.rt word)) }
        { m with mmu := mmu' } := by
  obtain ⟨op, rs, rt, rd, extra⟩ := i
  dsimp only at hload hrs hrt hextra hpa ⊢
  subst hrs hrt hextra
  have hea : effectiveAddress ⟨op, Arch.rs word, Arch.rt word, rd, Arch.signed word⟩ m =
    .ok (m.reg (Arch.rs word) + Arch.signed word) m := effectiveAddress_eq (Arch.rs_lt word)
  have haligned := locate_aligned hpa
  have hval : ∀ {mmu' : Mmu} {v w : Word}, v = w →
      (.ok { pcAfter := pcAfter, nextLoadReg := BitVec.ofNat 32 (Arch.rt word), nextLoadValue := v }
        { m with mmu := mmu' } : EStateM.Result Stop Machine After) =
      .ok { pcAfter := pcAfter, nextLoadReg := BitVec.ofNat 32 (Arch.rt word), nextLoadValue := w }
        { m with mmu := mmu' } := by
    rintro mmu' v _ rfl
    rfl
  cases op
  case lb =>
    simp only [execute, EStateM.apply_bind, hea]
    obtain ⟨mmu', hrun⟩ := readLoad_eq pcAfter hpa rfl fun value =>
      if value &&& 0x80 ≠ 0 then value ||| 0xffffff00 else value &&& 0xff
    exact ⟨mmu', hrun.trans (hval (lb_value _))⟩
  case lbu =>
    simp only [execute, EStateM.apply_bind, hea]
    obtain ⟨mmu', hrun⟩ := readLoad_eq pcAfter hpa rfl fun value => value &&& 0xff
    exact ⟨mmu', hrun.trans (hval (lbu_value _))⟩
  case lh =>
    simp only [execute, EStateM.apply_bind, hea, EStateM.apply_ite]
    rw [if_neg (not_not.mpr (haligned.1 rfl))]
    obtain ⟨mmu', hrun⟩ := readLoad_eq pcAfter hpa rfl fun value =>
      if value &&& 0x8000 ≠ 0 then value ||| 0xffff0000 else value &&& 0xffff
    exact ⟨mmu', hrun.trans (hval (lh_value _))⟩
  case lhu =>
    simp only [execute, EStateM.apply_bind, hea, EStateM.apply_ite]
    rw [if_neg (not_not.mpr (haligned.1 rfl))]
    obtain ⟨mmu', hrun⟩ := readLoad_eq pcAfter hpa rfl fun value => value &&& 0xffff
    exact ⟨mmu', hrun.trans (hval (lhu_value _))⟩
  case lw =>
    simp only [execute, EStateM.apply_bind, hea, EStateM.apply_ite]
    rw [if_neg (not_not.mpr (haligned.2 rfl))]
    obtain ⟨mmu', hrun⟩ := readLoad_eq pcAfter hpa rfl fun value => value
    exact ⟨mmu', hrun⟩
  case lwl =>
    simp only [execute, EStateM.apply_bind, hea, haligned.2 rfl]
    obtain ⟨mmu', hrun⟩ := readMerge_eq
      (i := ⟨.lwl, Arch.rs word, Arch.rt word, rd, Arch.signed word⟩) pcAfter hpa
      (read_four _ _) (Arch.rt_lt word) fun value _ => value
    exact ⟨mmu', hrun⟩
  case lwr =>
    simp only [execute, EStateM.apply_bind, hea, haligned.2 rfl]
    obtain ⟨mmu', hrun⟩ := readMerge_eq
      (i := ⟨.lwr, Arch.rs word, Arch.rt word, rd, Arch.signed word⟩) pcAfter hpa
      (read_four _ _) (Arch.rt_lt word) fun value old =>
      (old &&& 0xffffff00) ||| ((value.sshiftRight 24) &&& 0xff)
    exact ⟨mmu', hrun.trans (hval (lwr_value (landed m (Arch.rt word)) fun j =>
      m.mainMemory (pa + j)))⟩
  all_goals exact hload.elim

theorem and_not_three {a : Word} (h : a.toNat % 4 = 0) : a &&& ~~~3 = a := by
  apply BitVec.eq_of_getLsbD_eq
  intro k hk
  have hmask : ∀ k < 32, (~~~(3 : Word)).getLsbD k = decide (2 ≤ k) := by decide
  rw [BitVec.getLsbD_and, hmask k hk]
  by_cases h2 : 2 ≤ k
  · simp [h2]
  · have hbit : a.getLsbD k = false := by
      rw [BitVec.getLsbD, Nat.testBit_eq_decide_div_mod_eq]
      interval_cases k
      · simp only [pow_zero, Nat.div_one, decide_eq_false_iff_not]
        omega
      · simp only [pow_one, decide_eq_false_iff_not]
        omega
    rw [hbit]
    simp

theorem storeReg_eq {a : Word} {size : ℕ} (hsize : size = 1 ∨ size = 2 ∨ size = 4)
    (hea : effectiveAddress i m = .ok a m) (hpa : m.mmu.locate a size true = some pa)
    (hrt : i.rt < 32) :
    ∃ mmu', (do
        let rt ← readRegister i.rt
        writeMem (← effectiveAddress i) size rt
        return { pcAfter := pcAfter } : Exec After) m =
      .ok { pcAfter := pcAfter }
        { m with mmu := mmu', mainMemory := m.mainMemory.store pa size (m.reg i.rt) } := by
  obtain ⟨mmu', -, hwrite⟩ := writeMem_eq hpa (m.reg i.rt) hsize
  refine ⟨mmu', ?_⟩
  simp only [EStateM.apply_bind, readRegister_ok (show i.rt < 40 by omega), hea, hwrite]
  rfl

theorem storeMerge_eq {a old : Word} (hpa : m.mmu.locate a 4 true = some pa)
    (hold : m.mainMemory.read pa 4 = some old) (hrt : i.rt < 32) (f : Word → Word → Word) :
    ∃ mmu', (do
        assertAligned a
        let old ← readMem (a &&& ~~~3) 4
        let rt ← readRegister i.rt
        writeMem (a &&& ~~~3) 4 (f old rt)
        return { pcAfter := pcAfter } : Exec After) m =
      .ok { pcAfter := pcAfter }
        { m with mmu := mmu', mainMemory := m.mainMemory.store pa 4 (f old (m.reg i.rt)) } := by
  have haligned := (locate_aligned hpa).2 rfl
  obtain ⟨mmu₁, hsame, hread⟩ := readMem_eq (locate_read hpa) hold
  obtain ⟨mmu', -, hwrite⟩ := writeMem_eq (m := { m with mmu := mmu₁ }) (hsame.locate hpa)
    (f old (m.reg i.rt)) (.inr (.inr rfl))
  refine ⟨mmu', ?_⟩
  have hreg : readRegister i.rt { m with mmu := mmu₁ } = .ok (m.reg i.rt) { m with mmu := mmu₁ } :=
    readRegister_ok (show i.rt < 40 by omega)
  rw [and_not_three haligned]
  simp only [EStateM.apply_bind, assertAligned_eq haligned, hread, hreg, hwrite]
  rfl

theorem store_one (mem : Memory) (v a : Word) : mem.store pa 1 v = Arch.stored .sb a mem pa v := by
  funext x
  by_cases h : x = pa
  · subst h
    simp [Memory.store, Arch.stored, Arch.byte]
  · simp only [Memory.store, Arch.stored]
    rw [if_neg (by omega), if_neg h]

theorem execute_store (hstore : i.opCode.IsStore) (hrs : i.rs = Arch.rs word)
    (hrt : i.rt = Arch.rt word) (hextra : i.extra = Arch.signed word)
    (hpa : m.mmu.locate (m.reg (Arch.rs word) + Arch.signed word) (Arch.accessSize i.opCode) true =
      some pa) :
    ∃ mmu', execute i pcAfter m =
      .ok { pcAfter := pcAfter }
        { m with
          mmu := mmu'
          mainMemory := storeMemory i.opCode (m.reg (Arch.rs word) + Arch.signed word) m.mainMemory
            pa (m.reg (Arch.rt word)) } := by
  obtain ⟨op, rs, rt, rd, extra⟩ := i
  dsimp only at hstore hrs hrt hextra hpa ⊢
  subst hrs hrt hextra
  have hea : effectiveAddress ⟨op, Arch.rs word, Arch.rt word, rd, Arch.signed word⟩ m =
    .ok (m.reg (Arch.rs word) + Arch.signed word) m := effectiveAddress_eq (Arch.rs_lt word)
  have haligned := locate_aligned hpa
  have hmem : ∀ {mmu' : Mmu} {x y : Memory}, x = y →
      (.ok { pcAfter := pcAfter } { m with mmu := mmu', mainMemory := x } :
        EStateM.Result Stop Machine After) =
      .ok { pcAfter := pcAfter } { m with mmu := mmu', mainMemory := y } := by
    rintro mmu' x _ rfl
    rfl
  cases op
  case sb =>
    obtain ⟨mmu', hrun⟩ := storeReg_eq pcAfter (.inl rfl) hea hpa (Arch.rt_lt word)
    exact ⟨mmu', hrun.trans (hmem (store_one _ _ 0))⟩
  case sh =>
    obtain ⟨mmu', hrun⟩ := storeReg_eq pcAfter (.inr (.inl rfl)) hea hpa (Arch.rt_lt word)
    exact ⟨mmu', hrun⟩
  case sw =>
    obtain ⟨mmu', hrun⟩ := storeReg_eq pcAfter (.inr (.inr rfl)) hea hpa (Arch.rt_lt word)
    exact ⟨mmu', hrun⟩
  case swl =>
    simp only [execute, EStateM.apply_bind, hea, haligned.2 rfl]
    obtain ⟨mmu', hrun⟩ := storeMerge_eq
      (i := ⟨.swl, Arch.rs word, Arch.rt word, rd, Arch.signed word⟩) pcAfter hpa
      (read_four _ _) (Arch.rt_lt word) fun _ rt => rt
    exact ⟨mmu', hrun⟩
  case swr =>
    simp only [execute, EStateM.apply_bind, hea, haligned.2 rfl]
    obtain ⟨mmu', hrun⟩ := storeMerge_eq
      (i := ⟨.swr, Arch.rs word, Arch.rt word, rd, Arch.signed word⟩) pcAfter hpa
      (read_four _ _) (Arch.rt_lt word) fun old rt => (old &&& 0xffffff) ||| (rt <<< 24)
    refine ⟨mmu', hrun.trans (hmem (congrArg (m.mainMemory.store pa 4) ?_))⟩
    refine (swr_value _ _).trans (ofBytes_inj.mpr fun j hj => ?_)
    rw [byte_ofBytes _ hj]
  all_goals exact hstore.elim

end run

def Stepped (m m' : Machine) : Prop :=
  oneInstruction m = .ok () m' ∨ ∃ which, oneInstruction m = .error (.raised which) m'

/-- A pending load is in its register after the next instruction, whatever that is. -/
theorem pending_visible {m m' : Machine} {k : ℕ} (h0 : k ≠ 0) (hk : k < 32)
    (hreg : m.reg loadReg = BitVec.ofNat 32 k) (hstep : Stepped m m') :
    m'.reg k = m.reg loadValueReg := by
  have hto : (m.reg loadReg).toNat = k := by
    rw [hreg, BitVec.toNat_ofNat, Nat.mod_eq_of_lt (by omega)]
  have hl : LoadInRange m := by rw [LoadInRange, hto]; exact hk
  obtain hrun | ⟨which, hrun⟩ := hstep
  · rw [oneInstruction_eq] at hrun
    obtain ⟨a, m₂, hbody, hfin⟩ := EStateM.bind_eq_ok hrun
    obtain ⟨raw, m₁, hfetch, -⟩ := EStateM.bind_eq_ok hbody
    have hleave : ∀ j, 36 ≤ j → m₂.reg j = m.reg j := fun j hj =>
      body_leaves hfetch hbody (show j ≠ 32 by omega) (show j ≠ 33 by omega) fun hd => by
        have := dest_lt hd
        omega
    obtain ⟨m₃, hfin', -, hregs⟩ := finishInstruction_eq (m := m₂) a (by
      rw [LoadInRange, hleave _ (by decide)]
      exact hl)
    obtain ⟨-, rfl⟩ := EStateM.Result.ok.inj (hfin.symm.trans hfin')
    rw [hregs k (show k < 40 by omega), finishReg_general h0 (by omega), hleave _ (by decide),
      hleave _ (by decide), if_pos hto.symm]
  · have hpost := entry_oneInstruction hl
    unfold EStateM.Post at hpost
    rw [hrun] at hpost
    rw [hpost.2 k (show k < 40 by omega), entryReg,
      if_neg (show ¬(k = 0 ∨ k = 37 ∨ k = 38) by omega),
      if_neg (show k ≠ 39 by omega), if_pos hto.symm]

/-- The load or store does what the architecture says: a load leaves memory alone and its value
shows after the next instruction, a store writes its bytes. The registers are as the load before
leaves them. -/
def LoadStoreConforms (m : Machine) (word : Word) (pa : ℕ) : Prop :=
  ∃ m', oneInstruction m = .ok () m' ∧ GeneralRegs m' (landed m) ∧
    ((decode word).opCode.IsLoad → m'.mainMemory = m.mainMemory ∧ (Arch.rt word ≠ 0 →
      let value := Arch.loaded (decode word).opCode (m.reg (Arch.rs word) + Arch.signed word)
        m.mainMemory pa (landed m (Arch.rt word))
      m'.reg loadReg = BitVec.ofNat 32 (Arch.rt word) ∧ m'.reg loadValueReg = value ∧
        ∀ m'', Stepped m' m'' → m''.reg (Arch.rt word) = value)) ∧
    ((decode word).opCode.IsStore → m'.reg loadReg = 0 ∧
      m'.mainMemory = Arch.stored (decode word).opCode (m.reg (Arch.rs word) + Arch.signed word)
        m.mainMemory pa (m.reg (Arch.rt word)))

/-- The instruction is not one of the four for unaligned words, or the bytes it mixes up are
equal: those left in place on one side and moved on the other, and the two ends of the word. -/
def Unmirrored (m : Machine) (word : Word) (pa : ℕ) : Prop :=
  match (decode word).opCode with
  | .lwl => Arch.rt word = 0 ∨ (∀ j < 3, m.mainMemory (pa + j) =
      Arch.byte (landed m (Arch.rt word)) j) ∧ m.mainMemory (pa + 3) = m.mainMemory pa
  | .lwr => Arch.rt word = 0 ∨ (∀ j, 0 < j → j < 4 → m.mainMemory (pa + j) =
      Arch.byte (landed m (Arch.rt word)) j) ∧ m.mainMemory (pa + 3) = m.mainMemory pa
  | .swl => (∀ j, 0 < j → j < 4 → m.mainMemory (pa + j) = Arch.byte (m.reg (Arch.rt word)) j) ∧
      Arch.byte (m.reg (Arch.rt word)) 3 = Arch.byte (m.reg (Arch.rt word)) 0
  | .swr => (∀ j < 3, m.mainMemory (pa + j) = Arch.byte (m.reg (Arch.rt word)) j) ∧
      Arch.byte (m.reg (Arch.rt word)) 3 = Arch.byte (m.reg (Arch.rt word)) 0
  | _ => True

section mirror
variable {mem : Memory} {pa : ℕ} {addr : Word}

theorem lwl_iff (ha : addr.toNat % 4 = 0) (old : Word) :
    loadValue .lwl addr mem pa old = Arch.loaded .lwl addr mem pa old ↔
      (∀ j < 3, mem (pa + j) = Arch.byte old j) ∧ mem (pa + 3) = mem pa := by
  simp only [loadValue, Arch.loaded, ofBytes_inj, ha]
  constructor
  · intro h
    refine ⟨fun j hj => ?_, ?_⟩
    · rw [h j (by omega), if_neg (by omega)]
    · rw [h 3 (by decide), if_pos (by decide), Nat.add_sub_cancel]
  · rintro ⟨hlow, hends⟩ j hj
    by_cases h3 : j = 3
    · rw [h3, if_pos (by decide), Nat.add_sub_cancel, hends]
    · rw [if_neg (by omega), hlow j (by omega)]

theorem lwr_iff (ha : addr.toNat % 4 = 0) (old : Word) :
    loadValue .lwr addr mem pa old = Arch.loaded .lwr addr mem pa old ↔
      (∀ j, 0 < j → j < 4 → mem (pa + j) = Arch.byte old j) ∧ mem (pa + 3) = mem pa := by
  simp only [loadValue, Arch.loaded, ofBytes_inj, ha]
  constructor
  · intro h
    refine ⟨fun j h0 hj => ?_, ?_⟩
    · have hb := h j hj
      rw [if_neg (by omega), if_pos (by omega)] at hb
      exact hb.symm
    · have hb := h 0 (by decide)
      rwa [if_pos rfl, if_pos (by decide)] at hb
  · rintro ⟨hhigh, hends⟩ j hj
    rw [if_pos (show j ≤ 3 - 0 by omega)]
    by_cases h0 : j = 0
    · rw [h0, if_pos rfl, hends]
      rfl
    · rw [if_neg h0, hhigh j (by omega) hj]

theorem store_four_eq (v : Word) (a : ℕ) :
    mem.store pa 4 v a = if pa ≤ a ∧ a < pa + 4 then Arch.byte v (a - pa) else mem a := rfl

theorem stored_swl (ha : addr.toNat % 4 = 0) (v : Word) (a : ℕ) :
    Arch.stored .swl addr mem pa v a = if a = pa then Arch.byte v 3 else mem a := by
  simp only [Arch.stored, ha, Nat.add_zero]
  by_cases h : a = pa
  · rw [if_pos h, if_pos (by omega), h, Nat.add_sub_cancel_left]
  · rw [if_neg h, if_neg (by omega)]

theorem stored_swr (ha : addr.toNat % 4 = 0) (v : Word) (a : ℕ) :
    Arch.stored .swr addr mem pa v a =
      if pa ≤ a ∧ a < pa + 4 then Arch.byte v (a - pa) else mem a := by
  simp only [Arch.stored, ha, Nat.add_zero]

theorem swl_iff (ha : addr.toNat % 4 = 0) (v : Word) :
    storeMemory .swl addr mem pa v = Arch.stored .swl addr mem pa v ↔
      (∀ j, 0 < j → j < 4 → mem (pa + j) = Arch.byte v j) ∧ Arch.byte v 3 = Arch.byte v 0 := by
  rw [funext_iff]
  simp only [storeMemory, stored_swl ha, store_four_eq]
  constructor
  · intro h
    refine ⟨fun j h0 hj => ?_, ?_⟩
    · have hb := h (pa + j)
      rw [if_pos (by omega), if_neg (by omega), Nat.add_sub_cancel_left] at hb
      exact hb.symm
    · have hb := h pa
      rw [if_pos (by omega), if_pos rfl, Nat.sub_self] at hb
      exact hb.symm
  · rintro ⟨hhigh, hends⟩ a
    by_cases hin : pa ≤ a ∧ a < pa + 4
    · rw [if_pos hin]
      by_cases hpa : a = pa
      · rw [if_pos hpa, hpa, Nat.sub_self, hends]
      · rw [if_neg hpa, ← hhigh (a - pa) (by omega) (by omega), Nat.add_sub_of_le hin.1]
    · rw [if_neg hin, if_neg (by omega)]

theorem swr_iff (ha : addr.toNat % 4 = 0) (v : Word) :
    storeMemory .swr addr mem pa v = Arch.stored .swr addr mem pa v ↔
      (∀ j < 3, mem (pa + j) = Arch.byte v j) ∧ Arch.byte v 3 = Arch.byte v 0 := by
  rw [funext_iff]
  simp only [storeMemory, stored_swr ha, store_four_eq]
  constructor
  · intro h
    have hb : ∀ j < 4, (if j = 3 then Arch.byte v 0 else mem (pa + j)) = Arch.byte v j := by
      intro j hj
      have hj' := h (pa + j)
      rwa [if_pos (by omega), if_pos (by omega), Nat.add_sub_cancel_left, byte_ofBytes _ hj] at hj'
    refine ⟨fun j hj => ?_, (hb 3 (by decide)).symm⟩
    rw [← hb j (by omega), if_neg (by omega)]
  · rintro ⟨hlow, hends⟩ a
    by_cases hin : pa ≤ a ∧ a < pa + 4
    · rw [if_pos hin, if_pos hin, byte_ofBytes _ (by omega)]
      by_cases h3 : a - pa = 3
      · rw [if_pos h3, h3, hends]
      · rw [if_neg h3, hlow (a - pa) (by omega)]
    · rw [if_neg hin, if_neg hin]

end mirror

section conforms
variable {m m₁ : Machine} {word : Word} {pa : ℕ}

theorem known_of_loadStore (h : (decode word).opCode.IsLoad ∨ (decode word).opCode.IsStore) :
    (decode word).extra = Arch.signed word := by
  have hfmt : (decode word).opCode.format = .ifmt :=
    h.elim OpCode.IsLoad.format OpCode.IsStore.format
  have hextra := decode_extra word (fun hr => by simp [hr, OpCode.IsLoad, OpCode.IsStore] at h)
    (fun hu => by simp [hu, OpCode.IsLoad, OpCode.IsStore] at h)
  rwa [hfmt] at hextra

theorem finish_landed {a : After} (hl : LoadInRange m) :
    ∃ m', finishInstruction a m = .ok () m' ∧ GeneralRegs m' (landed m) ∧
      m'.mainMemory = m.mainMemory ∧ m'.reg loadReg = a.nextLoadReg ∧
      m'.reg loadValueReg = a.nextLoadValue := by
  obtain ⟨m', hrun, hmem, hreg⟩ := finishInstruction_eq a hl
  refine ⟨m', hrun, ⟨hreg 0 (by decide), fun k h0 hk => ?_⟩, hmem, hreg _ (by decide),
    hreg _ (by decide)⟩
  rw [hreg k (show k < 40 by omega), finishReg_general (by omega) (by omega)]
  rfl

theorem landed_congr {m' : Machine} (h : ∀ k, m'.reg k = m.reg k) : landed m' = landed m := by
  funext k
  simp only [landed, h]

theorem oneInstruction_load (hfetch : fetch m = .ok word m₁) (hl : LoadInRange m)
    (hload : (decode word).opCode.IsLoad)
    (hpa : m.mmu.locate (m.reg (Arch.rs word) + Arch.signed word)
      (Arch.accessSize (decode word).opCode) false = some pa) :
    ∃ m', oneInstruction m = .ok () m' ∧ GeneralRegs m' (landed m) ∧
      m'.mainMemory = m.mainMemory ∧ m'.reg loadReg = BitVec.ofNat 32 (Arch.rt word) ∧
      m'.reg loadValueReg = loadValue (decode word).opCode
        (m.reg (Arch.rs word) + Arch.signed word) m.mainMemory pa (landed m (Arch.rt word)) := by
  obtain ⟨hsame, hmem⟩ := fetch_same hfetch
  have hreg := fetch_reg hfetch
  obtain ⟨mmu', hexec⟩ := execute_load (m := m₁) (m.reg nextPCReg + 4) hload (decode_rs word)
    (decode_rt word) (known_of_loadStore (.inl hload)) (by rw [hreg]; exact hsame.locate hpa)
  rw [hreg, hmem, landed_congr hreg] at hexec
  have hreg' : ∀ k, ({ m₁ with mmu := mmu', mainMemory := m.mainMemory } : Machine).reg k =
      m.reg k :=
    hreg
  obtain ⟨m', hrun, hgen, hmem', hload', hval'⟩ := finish_landed
    (m := { m₁ with mmu := mmu', mainMemory := m.mainMemory })
    (a := ⟨m.reg nextPCReg + 4, BitVec.ofNat 32 (Arch.rt word), loadValue (decode word).opCode
      (m.reg (Arch.rs word) + Arch.signed word) m.mainMemory pa (landed m (Arch.rt word))⟩)
    (show (m₁.reg loadReg).toNat < 32 by rw [hreg]; exact hl)
  refine ⟨m', ?_, ?_, hmem', hload', hval'⟩
  · rw [oneInstruction_fetched hfetch, EStateM.apply_bind, hexec]
    exact hrun
  · rwa [landed_congr (m := m) hreg'] at hgen

theorem oneInstruction_store (hfetch : fetch m = .ok word m₁) (hl : LoadInRange m)
    (hstore : (decode word).opCode.IsStore)
    (hpa : m.mmu.locate (m.reg (Arch.rs word) + Arch.signed word)
      (Arch.accessSize (decode word).opCode) true = some pa) :
    ∃ m', oneInstruction m = .ok () m' ∧ GeneralRegs m' (landed m) ∧ m'.reg loadReg = 0 ∧
      m'.mainMemory = storeMemory (decode word).opCode
        (m.reg (Arch.rs word) + Arch.signed word) m.mainMemory pa (m.reg (Arch.rt word)) := by
  obtain ⟨hsame, hmem⟩ := fetch_same hfetch
  have hreg := fetch_reg hfetch
  obtain ⟨mmu', hexec⟩ := execute_store (m := m₁) (m.reg nextPCReg + 4) hstore (decode_rs word)
    (decode_rt word) (known_of_loadStore (.inr hstore)) (by rw [hreg]; exact hsame.locate hpa)
  rw [hreg, hreg, hmem] at hexec
  have hreg' : ∀ mem k, ({ m₁ with mmu := mmu', mainMemory := mem } : Machine).reg k = m.reg k :=
    fun _ => hreg
  obtain ⟨m', hrun, hgen, hmem', hload', -⟩ := finish_landed
    (m := { m₁ with
      mmu := mmu'
      mainMemory := storeMemory (decode word).opCode (m.reg (Arch.rs word) + Arch.signed word)
        m.mainMemory pa (m.reg (Arch.rt word)) })
    (a := ⟨m.reg nextPCReg + 4, 0, 0⟩) (show (m₁.reg loadReg).toNat < 32 by rw [hreg]; exact hl)
  refine ⟨m', ?_, ?_, hload', hmem'⟩
  · rw [oneInstruction_fetched hfetch, EStateM.apply_bind, hexec]
    exact hrun
  · rwa [landed_congr (m := m) (hreg' _)] at hgen

theorem isStore_of_isLoad (h : (decode word).opCode.IsLoad) : ¬(decode word).opCode.IsStore := by
  intro hs
  cases hop : (decode word).opCode <;> rw [hop] at h hs <;> first | exact h | exact hs

theorem loadConforms_iff (hfetch : fetch m = .ok word m₁) (hl : LoadInRange m)
    (hload : (decode word).opCode.IsLoad)
    (hpa : m.mmu.locate (m.reg (Arch.rs word) + Arch.signed word)
      (Arch.accessSize (decode word).opCode) false = some pa) :
    LoadStoreConforms m word pa ↔ (Arch.rt word ≠ 0 →
      loadValue (decode word).opCode (m.reg (Arch.rs word) + Arch.signed word) m.mainMemory pa
          (landed m (Arch.rt word)) =
        Arch.loaded (decode word).opCode (m.reg (Arch.rs word) + Arch.signed word) m.mainMemory pa
          (landed m (Arch.rt word))) := by
  obtain ⟨m', hrun, hgen, hmem, hreg, hval⟩ := oneInstruction_load hfetch hl hload hpa
  constructor
  · rintro ⟨m'', hrun', -, hspec, -⟩ h0
    obtain ⟨-, rfl⟩ := EStateM.Result.ok.inj (hrun.symm.trans hrun')
    exact hval.symm.trans ((hspec hload).2 h0).2.1
  · intro heq
    refine ⟨m', hrun, hgen, fun _ => ⟨hmem, fun h0 => ?_⟩, fun hs => ?_⟩
    · refine ⟨hreg, hval.trans (heq h0), fun m'' hstep => ?_⟩
      rw [pending_visible h0 (Arch.rt_lt word) hreg hstep, hval, heq h0]
    · exact absurd hs (isStore_of_isLoad hload)

theorem storeConforms_iff (hfetch : fetch m = .ok word m₁) (hl : LoadInRange m)
    (hstore : (decode word).opCode.IsStore)
    (hpa : m.mmu.locate (m.reg (Arch.rs word) + Arch.signed word)
      (Arch.accessSize (decode word).opCode) true = some pa) :
    LoadStoreConforms m word pa ↔
      storeMemory (decode word).opCode (m.reg (Arch.rs word) + Arch.signed word) m.mainMemory pa
          (m.reg (Arch.rt word)) =
        Arch.stored (decode word).opCode (m.reg (Arch.rs word) + Arch.signed word) m.mainMemory pa
          (m.reg (Arch.rt word)) := by
  obtain ⟨m', hrun, hgen, hreg, hmem⟩ := oneInstruction_store hfetch hl hstore hpa
  constructor
  · rintro ⟨m'', hrun', -, -, hspec⟩
    obtain ⟨-, rfl⟩ := EStateM.Result.ok.inj (hrun.symm.trans hrun')
    exact hmem.symm.trans (hspec hstore).2
  · intro heq
    refine ⟨m', hrun, hgen, fun hload => ?_, fun _ => ⟨hreg, hmem.trans heq⟩⟩
    exact absurd hstore (isStore_of_isLoad hload)

/-- A load or store at a mapped address, hence at one aligned for its size, does what the
little-endian architecture says exactly when it is not an `LWL`, `LWR`, `SWL` or `SWR` whose
operands show that it is written the other way round. The load register is in range on every run
(`oneInstruction_inRange`). -/
theorem loadStore_conforms_iff (hfetch : fetch m = .ok word m₁) (hl : (m.reg loadReg).toNat < 32)
    (hop : (decode word).opCode.IsLoad ∨ (decode word).opCode.IsStore)
    (hpa : m.mmu.locate (m.reg (Arch.rs word) + Arch.signed word)
      (Arch.accessSize (decode word).opCode) (decide (decode word).opCode.IsStore) = some pa) :
    LoadStoreConforms m word pa ↔ Unmirrored m word pa := by
  have haligned := (locate_aligned hpa).2
  unfold Unmirrored
  obtain hload | hstore := hop
  · rw [decide_eq_false (isStore_of_isLoad hload)] at hpa
    rw [loadConforms_iff hfetch hl hload hpa]
    cases hcode : (decode word).opCode
    case lwl =>
      rw [lwl_iff (haligned (by rw [hcode]; rfl)), imp_iff_not_or, not_not]
    case lwr =>
      rw [lwr_iff (haligned (by rw [hcode]; rfl)), imp_iff_not_or, not_not]
    case lb | lbu | lh | lhu | lw => exact iff_of_true (fun _ => rfl) trivial
    all_goals
      rw [hcode] at hload
      exact hload.elim
  · rw [decide_eq_true hstore] at hpa
    rw [storeConforms_iff hfetch hl hstore hpa]
    cases hcode : (decode word).opCode
    case swl => exact swl_iff (haligned (by rw [hcode]; rfl)) _
    case swr => exact swr_iff (haligned (by rw [hcode]; rfl)) _
    case sb | sh | sw => exact iff_of_true rfl trivial
    all_goals
      rw [hcode] at hstore
      exact hstore.elim

end conforms

/-- `LW r2,0(r1)` of the instruction itself. -/
theorem machineWith_lw_conforms : LoadStoreConforms (machineWith 0x8c220000 0 5) 0x8c220000 0 :=
  (loadStore_conforms_iff (m := machineWith 0x8c220000 0 5) rfl (by decide) (by decide)
    (by decide)).mpr trivial

/-- `LWL r2,0(r1)` and `SWL r2,0(r1)` at address 0, with 5 in `r2`: the architecture moves one
byte. -/
theorem machineWith_lwl_swl_wrong :
    (((machineWith 0x88220000 0 5).reg loadReg).toNat < 32 ∧ (decode 0x88220000).opCode = .lwl ∧
      (machineWith 0x88220000 0 5).mmu.locate 0 4 false = some 0 ∧
      ¬LoadStoreConforms (machineWith 0x88220000 0 5) 0x88220000 0) ∧
    ((machineWith 0xa8220000 0 5).reg loadReg).toNat < 32 ∧ (decode 0xa8220000).opCode = .swl ∧
      (machineWith 0xa8220000 0 5).mmu.locate 0 4 true = some 0 ∧
      ¬LoadStoreConforms (machineWith 0xa8220000 0 5) 0xa8220000 0 := by
  have hlwl : ∃ m', oneInstruction (machineWith 0x88220000 0 5) = .ok () m' ∧
      m'.reg loadValueReg = 0x88220000 := ⟨_, rfl, by decide⟩
  have hswl : ∃ m', oneInstruction (machineWith 0xa8220000 0 5) = .ok () m' ∧
      m'.mainMemory 0 = 5 := ⟨_, rfl, by decide⟩
  refine ⟨⟨by decide, by decide, by decide, ?_⟩, by decide, by decide, by decide, ?_⟩
  · rintro ⟨m', hrun, -, hspec, -⟩
    obtain ⟨m'', hrun', hval⟩ := hlwl
    obtain ⟨-, rfl⟩ := EStateM.Result.ok.inj (hrun.symm.trans hrun')
    rw [((hspec (by decide)).2 (by decide)).2.1] at hval
    exact absurd hval (by decide)
  · rintro ⟨m', hrun, -, -, hspec⟩
    obtain ⟨m'', hrun', hmem⟩ := hswl
    obtain ⟨-, rfl⟩ := EStateM.Result.ok.inj (hrun.symm.trans hrun')
    rw [(hspec (by decide)).2] at hmem
    exact absurd hmem (by decide)

end Nachos
