import Nachos.PlainMemory

/-! Accesses through a linear page table are those of a little-endian byte memory. An access of one,
two or four bytes stays inside the frame of its page, and a byte of the virtual memory has a place
of its own. An exception of the translation leaves the memory and the page table. -/
namespace Nachos

/-- The valid entries of the page table hold different frames of the main memory. -/
structure Framed (entries : List TranslationEntry) : Prop where
  below : ∀ e ∈ entries, e.valid = true → 0 ≤ e.physicalPage ∧ e.physicalPage < numPhysPages
  different : ∀ (i j : ℕ) (e e' : TranslationEntry), entries[i]? = some e → entries[j]? = some e' →
    e.valid = true → e'.valid = true → e.physicalPage = e'.physicalPage → i = j

structure InFrame (entries : List TranslationEntry) (virtAddr : Word) (size pa : ℕ) : Prop where
  entry : ∃ e f, entries[virtAddr.toNat / pageSize]? = some e ∧ e.physicalPage = ((f : ℕ) : ℤ) ∧
    f * pageSize ≤ pa ∧ pa + size ≤ (f + 1) * pageSize
  fits : pa + size ≤ memorySize

/-- Memory and translation are as they were. -/
def Machine.Kept (m m' : Machine) : Prop := m'.mmu = m.mmu ∧ m'.mainMemory = m.mainMemory

section exception
open EStateM
variable {m m₁ : Machine} {addr : Word} {size : ℕ} {writing : Bool} {e : ExceptionType}

theorem kept_readRegister (i : ℕ) (h : m.Kept m₁) :
    Post (readRegister i) m₁ (fun _ m' => m.Kept m') (fun _ m' => m.Kept m') := by
  unfold Post readRegister
  split_ifs
  · exact h
  · exact h

theorem kept_writeRegister (i : ℕ) (v : Word) (h : m.Kept m₁) :
    Post (writeRegister i v) m₁ (fun _ m' => m.Kept m') (fun _ m' => m.Kept m') := by
  unfold Post writeRegister
  split_ifs
  · exact h
  · exact h

theorem kept_delayedLoad (r v : Word) (h : m.Kept m₁) :
    Post (delayedLoad r v) m₁ (fun _ m' => m.Kept m') (fun _ m' => m.Kept m') :=
  (kept_readRegister loadReg h).bind fun _ _ h => (kept_readRegister loadValueReg h).bind
    fun _ _ h => (kept_writeRegister _ _ h).bind fun _ _ h => (kept_writeRegister _ _ h).bind
      fun _ _ h => (kept_writeRegister _ _ h).bind fun _ _ h => kept_writeRegister _ _ h

theorem kept_raiseException (e : ExceptionType) (addr : Word) :
    Post (raiseException e addr : Exec ℕ) m (fun _ _ => False) (fun _ m' => m.Kept m') :=
  (kept_writeRegister badVAddrReg addr ⟨rfl, rfl⟩).bind fun _ _ h =>
    (kept_delayedLoad 0 0 h).bind fun _ _ h => Post.throw h

theorem translateOrRaise_exception (h : translate m.mmu addr size writing = .ok (.error e)) :
    ∃ st m', translateOrRaise addr size writing m = .error st m' ∧ m.Kept m' := by
  have hkept := kept_raiseException (m := m) e addr
  rw [translateOrRaise_raise h]
  unfold Post at hkept
  cases hrun : (raiseException e addr : Exec ℕ) m with
  | ok a m' =>
    rw [hrun] at hkept
    exact hkept.elim
  | error st m' =>
    rw [hrun] at hkept
    exact ⟨st, m', rfl, hkept⟩

end exception

section linear
variable {entries : List TranslationEntry} {a : Word} {size pa : ℕ} {writing : Bool}

theorem inFrame_of_translate (hs : size = 1 ∨ size = 2 ∨ size = 4) {mmu' : Mmu}
    (h : translate (.pageTable entries) a size writing = .ok (.ok (pa, mmu'))) :
    InFrame entries a size pa := by
  obtain ⟨ha, -, e, hf, hr⟩ := translate_eq_ok h
  obtain ⟨he, -⟩ := Option.filter_eq_some_iff.mp hf
  have hoff := offset_add_size_le hs ha
  obtain ⟨hlow, -⟩ := not_or.mp hr.frame
  have haddr := hr.address
  constructor
  case entry =>
    refine ⟨e, e.physicalPage.toNat, he, (Int.toNat_of_nonneg (not_lt.mp hlow)).symm, by omega, ?_⟩
    rw [Nat.add_mul, Nat.one_mul]
    omega
  case fits => exact hr.fits

def place (entries : List TranslationEntry) (x : ℕ) : Option ℕ :=
  (entries[x / pageSize]?.filter (·.valid)).map fun e =>
    e.physicalPage.toNat * pageSize + x % pageSize

theorem Framed.place_inj (h : Framed entries) {x y p : ℕ} (hx : place entries x = some p)
    (hy : place entries y = some p) : x = y := by
  obtain ⟨e, he, hxp⟩ := Option.map_eq_some_iff.mp hx
  obtain ⟨e', he', hyp⟩ := Option.map_eq_some_iff.mp hy
  obtain ⟨hx', hv⟩ := Option.filter_eq_some_iff.mp he
  obtain ⟨hy', hv'⟩ := Option.filter_eq_some_iff.mp he'
  have h1 := (h.below e (List.mem_of_getElem? hx') hv).1
  have h2 := (h.below e' (List.mem_of_getElem? hy') hv').1
  simp only [pageSize] at hxp hyp
  have hpage : x / pageSize = y / pageSize :=
    h.different _ _ e e' hx' hy' hv hv' (by omega)
  simp only [pageSize] at hpage
  omega

theorem place_of_locate (hs : size = 1 ∨ size = 2 ∨ size = 4)
    (h : (Mmu.pageTable entries).locate a size writing = some pa) {j : ℕ} (hj : j < size) :
    place entries (a.toNat + j) = some (pa + j) := by
  obtain ⟨ha, e, hf, hr⟩ := locate_eq_some.mp h
  have hoff := offset_add_size_le hs ha
  have haddr := hr.address
  have hpage : (a.toNat + j) / pageSize = a.toNat / pageSize := by
    simp only [pageSize] at *
    omega
  have hfind : entries[a.toNat / pageSize]?.filter (·.valid) = some e := hf
  rw [place, hpage, hfind, Option.map_some, Option.some.injEq]
  simp only [pageSize] at *
  omega

end linear

section readWrite
variable {m m₁ m₂ : Machine} {a b v w : Word} {n k pa : ℕ} {writing : Bool}

theorem locate_of_translate {mmu mmu' : Mmu}
    (h : translate mmu a n writing = .ok (.ok (pa, mmu'))) : mmu.locate a n writing = some pa := by
  rw [Mmu.locate, h]

theorem readMem_inv (h : readMem b k m = .ok w m₁) :
    ∃ pa, m.mmu.locate b k false = some pa ∧ m.mainMemory.read pa k = some w := by
  obtain ⟨pa, m', ht, hread⟩ := EStateM.bind_eq_ok h
  obtain ⟨mmu', htr, rfl⟩ := translateOrRaise_inv ht
  refine ⟨pa, locate_of_translate htr, ?_⟩
  simp only [EStateM.apply_bind, EStateM.apply_get] at hread
  cases hv : m.mainMemory.read pa k with
  | none =>
    rw [hv] at hread
    cases hread
  | some v =>
    rw [hv] at hread
    obtain ⟨rfl, -⟩ := EStateM.Result.ok.inj hread
    rfl

theorem writeMem_inv (hn : n = 1 ∨ n = 2 ∨ n = 4) (h : writeMem a n v m = .ok () m₁) :
    ∃ pa, m.mmu.locate a n true = some pa ∧ m₁.mainMemory = m.mainMemory.store pa n v ∧
      ∀ x l w, m₁.mmu.locate x l w = m.mmu.locate x l w := by
  obtain ⟨pa, m', ht, hwrite⟩ := EStateM.bind_eq_ok h
  obtain ⟨mmu', htr, rfl⟩ := translateOrRaise_inv ht
  refine ⟨pa, locate_of_translate htr, ?_⟩
  simp only [EStateM.apply_bind, EStateM.apply_get] at hwrite
  obtain rfl | rfl | rfl := hn <;>
    (obtain ⟨-, rfl⟩ := EStateM.Result.ok.inj hwrite
     exact ⟨rfl, fun x l w => locate_translate htr w x l⟩)

/-- A read after a write: the bytes written, and the bytes that were there. -/
theorem read_after_write {entries : List TranslationEntry} (hm : m.mmu = .pageTable entries)
    (hf : Framed entries) (hn : n = 1 ∨ n = 2 ∨ n = 4) (hk : k = 1 ∨ k = 2 ∨ k = 4)
    (hw : writeMem a n v m = .ok () m₁) (hr : readMem b k m₁ = .ok w m₂) :
    ∃ w₀ m₀, readMem b k m = .ok w₀ m₀ ∧ ∀ j < k, Arch.byte w j =
      if a.toNat ≤ b.toNat + j ∧ b.toNat + j < a.toNat + n then
        Arch.byte v (b.toNat + j - a.toNat)
      else Arch.byte w₀ j := by
  obtain ⟨pa, hpa, hmem, hloc⟩ := writeMem_inv hn hw
  obtain ⟨pb, hpb, hread⟩ := readMem_inv hr
  rw [hloc] at hpb
  obtain ⟨w₀, hw₀⟩ : ∃ w₀, m.mainMemory.read pb k = some w₀ := by
    obtain rfl | rfl | rfl := hk <;> exact ⟨_, rfl⟩
  obtain ⟨mmu', -, hold⟩ := readMem_eq hpb hw₀
  refine ⟨w₀, _, hold, fun j hj => ?_⟩
  have hplace : place entries (b.toNat + j) = some (pb + j) := by
    rw [hm] at hpb
    exact place_of_locate hk hpb hj
  have hbyte : Arch.byte w j = m.mainMemory.store pa n v (pb + j) := by
    rw [← hmem]
    exact Memory.extract_read hread hj
  have hbyte₀ : Arch.byte w₀ j = m.mainMemory (pb + j) := Memory.extract_read hw₀ hj
  rw [hbyte, hbyte₀, Memory.store]
  by_cases hin : a.toNat ≤ b.toNat + j ∧ b.toNat + j < a.toNat + n
  · obtain ⟨i, hi⟩ := Nat.exists_eq_add_of_le hin.1
    have hplace' : place entries (a.toNat + i) = some (pa + i) := by
      rw [hm] at hpa
      exact place_of_locate hn hpa (by omega)
    have heq : pb + j = pa + i := by
      rw [hi] at hplace
      exact Option.some.inj (hplace.symm.trans hplace')
    rw [if_pos hin, if_pos (by omega), Arch.byte, show pb + j - pa = b.toNat + j - a.toNat by omega]
  · have hout : ¬ (pa ≤ pb + j ∧ pb + j < pa + n) := by
      rintro ⟨hle, hlt⟩
      obtain ⟨i, hi⟩ := Nat.exists_eq_add_of_le hle
      have hplace' : place entries (a.toNat + i) = some (pa + i) := by
        rw [hm] at hpa
        exact place_of_locate hn hpa (by omega)
      rw [← hi] at hplace'
      have := hf.place_inj hplace hplace'
      omega
    rw [if_neg hin, if_neg hout]

end readWrite

/-- Accesses through a page table, whatever its entries: an exception that changes nothing or an
address in the frame of the page. With valid entries that hold different frames they are those of
a little-endian byte memory. -/
theorem pageTable_byteMemory (entries : List TranslationEntry) (a : Word) (n : ℕ)
    (hn : n = 1 ∨ n = 2 ∨ n = 4) :
    (∀ writing,
      (∃ e, translate (.pageTable entries) a n writing = .ok (.error e) ∧
        ∀ m : Machine, m.mmu = .pageTable entries →
          ∃ st m', translateOrRaise a n writing m = .error st m' ∧ m.Kept m') ∨
      ∃ pa mmu', translate (.pageTable entries) a n writing = .ok (.ok (pa, mmu')) ∧
        InFrame entries a n pa) ∧
    (Framed entries → ∀ (m m₁ m₂ : Machine) (b v w : Word) (k : ℕ), m.mmu = .pageTable entries →
      k = 1 ∨ k = 2 ∨ k = 4 → writeMem a n v m = .ok () m₁ → readMem b k m₁ = .ok w m₂ →
      ∃ w₀ m₀, readMem b k m = .ok w₀ m₀ ∧ ∀ j < k, Arch.byte w j =
        if a.toNat ≤ b.toNat + j ∧ b.toNat + j < a.toNat + n then
          Arch.byte v (b.toNat + j - a.toNat)
        else Arch.byte w₀ j) := by
  refine ⟨fun writing => ?_, fun hf m m₁ m₂ b v w k hm hk => read_after_write hm hf hn hk⟩
  cases h : translate (.pageTable entries) a n writing with
  | error t => exact absurd h (translate_no_trap _ _ _ hn t)
  | ok r =>
    cases r with
    | error e =>
      exact .inl ⟨e, rfl, fun m hm => translateOrRaise_exception (by rw [hm]; exact h)⟩
    | ok p =>
      obtain ⟨pa, mmu'⟩ := p
      exact .inr ⟨pa, mmu', rfl, inFrame_of_translate hn h⟩

def twoFrames : List TranslationEntry :=
  [⟨0, 5, true, false, false, false⟩, ⟨1, 3, true, false, false, false⟩]

theorem twoFrames_framed : Framed twoFrames where
  below := by decide
  different i j e e' hi hj _ _ hframe := by
    have hlt := (List.getElem?_eq_some_iff.mp hi).1
    have hlt' := (List.getElem?_eq_some_iff.mp hj).1
    simp only [twoFrames, List.length_cons, List.length_nil] at hlt hlt'
    obtain rfl | ⟨rfl, rfl⟩ | ⟨rfl, rfl⟩ : i = j ∨ i = 0 ∧ j = 1 ∨ i = 1 ∧ j = 0 := by omega
    · rfl
    · cases hi
      cases hj
      exact absurd hframe (by decide)
    · cases hi
      cases hj
      exact absurd hframe (by decide)

def twoFramesMachine : Machine := ⟨fun _ => 0, fun _ => 255, .pageTable twoFrames⟩

/-- The last word of the first page is written; its upper half is read, and the first half word of
the second page. -/
theorem pageTable_byteMemory_twoPages :
    ∃ w m₁ m₂ w' m₂', writeMem 124 4 0x01020304 twoFramesMachine = .ok () m₁ ∧
      readMem 126 2 m₁ = .ok w m₂ ∧ readMem 128 2 m₁ = .ok w' m₂' ∧
      (∃ w₀ m₀, readMem 126 2 twoFramesMachine = .ok w₀ m₀ ∧ ∀ j < 2, Arch.byte w j =
        if (124 : Word).toNat ≤ (126 : Word).toNat + j ∧
          (126 : Word).toNat + j < (124 : Word).toNat + 4 then
          Arch.byte 0x01020304 ((126 : Word).toNat + j - (124 : Word).toNat)
        else Arch.byte w₀ j) ∧
      ∃ w₀ m₀, readMem 128 2 twoFramesMachine = .ok w₀ m₀ ∧ ∀ j < 2, Arch.byte w' j =
        if (124 : Word).toNat ≤ (128 : Word).toNat + j ∧
          (128 : Word).toNat + j < (124 : Word).toNat + 4 then
          Arch.byte 0x01020304 ((128 : Word).toNat + j - (124 : Word).toNat)
        else Arch.byte w₀ j :=
  ⟨_, _, _, _, _, rfl, rfl, rfl,
    (pageTable_byteMemory twoFrames 124 4 (by decide)).2 twoFrames_framed
      twoFramesMachine _ _ 126 0x01020304 _ 2 rfl (by decide) rfl rfl,
    (pageTable_byteMemory twoFrames 124 4 (by decide)).2 twoFrames_framed
      twoFramesMachine _ _ 128 0x01020304 _ 2 rfl (by decide) rfl rfl⟩

end Nachos
